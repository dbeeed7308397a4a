import ManagedSymbols.Layout.MetadataForm
import ManagedSymbols.Proofs.Reader.Texts

/-!
# Custom metadata is read where it is stored

An item is read back from each of its forms with the cursor behind all of it, whatever its content's reader leaves
(`MetadataItem.Form.reads`), and so is a blob of items from any position (`MetadataItem.readBlob_of_form`). The layout of items that
can be stored is a form of them (`MetadataItem.blobForm_blob`), so it is read back as well. The description of an async method is
read where it is stored.
-/

namespace ManagedSymbols

open Reader

/-- The least multiple of an alignment is reached over the bytes that fill the gap. -/
theorem Reader.Reads.align (p : Nat) {alignment : Nat} {xs : List UInt8} (ha : alignment ≠ 0)
    (hx : xs.length = Layout.gap alignment p) : Reads p (Reader.align alignment) xs () := by
  intro b hb
  have hle := hb.le_size
  have hs := b.size_lt
  have hm : p % alignment ≤ alignment := Nat.le_of_lt (Nat.mod_lt p (Nat.pos_of_ne_zero ha))
  rw [Layout.gap] at hx
  simp only [Buffer.size] at hle
  simp only [Reader.align, run_bind, run_require, if_pos ha, Reader.position, run_minus, if_pos hm, ← hx, run_fits]
  rw [if_pos (by omega)]
  simp only [Reader.size, Buffer.size, if_pos hle, moveTo]

/-! ## Each form is read -/

theorem HoistedRange.Form.reads {r : HoistedRange} {xs : List UInt8} (form : r.Form xs) (p : Nat) :
    Reads p HoistedRange.read xs r := by
  obtain @⟨offset, length, fits⟩ := form
  have hadd : (offset + length).toNat = offset.toNat + length.toNat := by
    rw [UInt32.toNat_add, Nat.mod_eq_of_lt fits]
  have hle : offset ≤ offset + length := by
    rw [UInt32.le_iff_toNat_le, hadd]
    omega
  have hsub : offset + length - offset = length := by
    apply UInt32.toNat_inj.mp
    rw [UInt32.toNat_sub_of_le _ _ hle, hadd]
    omega
  refine (Reads.u32 p offset).bind ?_
  refine (Reads.u32 _ (offset + length)).bind_end ?_
  refine (Reads.require _ _ hle).bind_nil ?_
  rw [hsub]
  exact Reads.pure _ _

theorem HoistedRange.Form.length_pos {r : HoistedRange} {xs : List UInt8} (form : r.Form xs) : 0 < xs.length := by
  cases form
  simp only [List.length_append, Layout.length_word32]
  omega

theorem DynamicLocal.Form.reads {d : DynamicLocal} {xs : List UInt8} (form : d.Form xs) (p : Nat) :
    Reads p DynamicLocal.read xs d := by
  obtain @⟨flags, unused, slotIndex, name, behind, flagBytes, nulFree, nameUnits, ended⟩ := form
  have hcount : (UInt32.ofNat flags.length).toNat = flags.length := by
    rw [UInt32.toNat_ofNat', Nat.mod_eq_of_lt (by omega)]
  have hlen : (flags ++ unused).length = dynamicFlagBytes := by rw [List.length_append, flagBytes, dynamicFlagBytes]
  have hfew : (UInt32.ofNat flags.length).toNat ≤ (flags ++ unused).length := by
    rw [hcount, List.length_append]
    omega
  rw [List.append_assoc, List.append_assoc]
  refine (Reads.bytes p hlen).bind ?_
  refine (Reads.u32 _ _).bind ?_
  refine (Reads.require _ _ (hlen ▸ hfew)).bind_nil ?_
  refine (Reads.u32 _ _).bind ?_
  refine (Reads.fixedUtf16 _ nulFree ended nameUnits).bind_end ?_
  refine (Reads.require _ _ hfew).bind_nil ?_
  rw [hcount, List.take_left]
  exact Reads.pure _ _

theorem DynamicLocal.Form.length_pos {d : DynamicLocal} {xs : List UInt8} (form : d.Form xs) : 0 < xs.length := by
  cases form
  simp only [List.length_append, Layout.length_word32]
  omega

namespace MetadataItem

/-- Things that are counted in 32 bits and stand in a row are read, if none of them has an empty form. -/
theorem reads_counted {α : Type} {r : Reader α} {Form : α → List UInt8 → Prop} {as : List α} {row : List UInt8}
    (each : Layout.Row Form as row) (reads : ∀ {a xs}, Form a xs → ∀ p, Reads p r xs a)
    (filled : ∀ {a xs}, Form a xs → 0 < xs.length) (fits : row.length < 2 ^ 32) (f : List α → MetadataItem) (p : Nat) :
    Reads p (do
      let count ← Reader.u32
      f <$> Reader.times count.toNat r) (Layout.word32 (UInt32.ofNat as.length) ++ row) (f as) := by
  have hcount : (UInt32.ofNat as.length).toNat = as.length := by
    rw [UInt32.toNat_ofNat', Nat.mod_eq_of_lt (Nat.lt_of_le_of_lt (each.length_le filled) fits)]
  refine (Reads.u32 p _).bind ?_
  rw [hcount]
  exact (Reads.times_row (each.mono reads) _).map f

/-- The content of an item is read from its form, by the code of the item. -/
theorem ContentForm.reads {item : MetadataItem} {code : UInt8} {xs : List UInt8} (form : ContentForm item code xs)
    (fits : xs.length < 2 ^ 32) (version : UInt8) (length : UInt32) (p : Nat) :
    Reads p (readContent (MetadataKind.ofCode code) version length) xs item := by
  cases form with
  | @usingInfo counts few =>
    have hcount : (UInt16.ofNat counts.length).toNat = counts.length := by rw [UInt16.toNat_ofNat', Nat.mod_eq_of_lt few]
    refine (Reads.u16 p _).bind ?_
    rw [hcount]
    exact (Reads.times (fun n _ q => Reads.u16 q n) _).map MetadataItem.usingInfo
  | forwardInfo token => exact (Reads.u32 p token.value).map _
  | forwardToModuleInfo token => exact (Reads.u32 p token.value).map _
  | iteratorLocals each =>
    rw [List.length_append] at fits
    exact reads_counted each HoistedRange.Form.reads HoistedRange.Form.length_pos (by omega) MetadataItem.iteratorLocals p
  | forwardIterator nulFree => exact (Reads.utf16 p nulFree).map MetadataItem.forwardIterator
  | dynamicLocals each =>
    rw [List.length_append] at fits
    exact reads_counted each DynamicLocal.Form.reads DynamicLocal.Form.length_pos (by omega) MetadataItem.dynamicLocals p

/-- The content of an item whose code is not understood is not looked at. -/
theorem readContent_of_foreign {code : UInt8} (foreign : 5 < code) (version : UInt8) (length : UInt32) :
    readContent (MetadataKind.ofCode code) version length = pure (skipped (MetadataKind.ofCode code) version length) := by
  unfold MetadataKind.ofCode
  split
  iterate 6 exact absurd foreign (by decide)
  all_goals rfl

/-- An item is read with its header and its body if the body gives it: the cursor is left behind the body, wherever the reader of
the content has stopped. -/
theorem reads_withHeader {item : MetadataItem} {version code : UInt8} {free : UInt8 × UInt8} {body : List UInt8}
    (fits : 8 + body.length < 2 ^ 32)
    (content : ∀ b p, b.Holds p body →
      ∃ q, readVersioned (MetadataKind.ofCode code) version (UInt32.ofNat (8 + body.length)) b p = (.ok item, q)) (p : Nat) :
    Reads p read (withHeader version code free body) item := by
  have hs : (UInt32.ofNat (8 + body.length)).toNat = 8 + body.length := by rw [UInt32.toNat_ofNat', Nat.mod_eq_of_lt fits]
  have h8 : itemHeaderSize ≤ UInt32.ofNat (8 + body.length) := by
    rw [UInt32.le_iff_toNat_le, hs]
    exact Nat.le_add_right 8 _
  have hparts : withHeader version code free body =
      [version] ++ ([code] ++ ([free.1, free.2] ++ (Layout.word32 (UInt32.ofNat (8 + body.length)) ++ body))) := by
    simp [withHeader]
  have hfree : [free.1, free.2].length = 2 := rfl
  rw [hparts]
  refine (Reads.position p).bind_nil ?_
  refine (Reads.u8 p _).bind ?_
  refine ((Reads.u8 _ _).map MetadataKind.ofCode).bind ?_
  refine (Reads.advance _ hfree).bind ?_
  refine (Reads.u32 _ _).bind ?_
  refine (Reads.require _ _ h8).bind_nil ?_
  simp only [List.length_cons, List.length_nil, Layout.length_word32, Nat.add_assoc, Nat.reduceAdd]
  intro b hb
  obtain ⟨q, hq⟩ := content b (p + 8) hb
  have hle := hb.le_size
  rw [Nat.add_assoc] at hle ⊢
  simp only [run_bind, Reader.size, run_require, hs, if_pos hle, hq, run_seek, run_pure]

/-- An item is read from its form, and the cursor is left behind it. -/
theorem Form.reads {item : MetadataItem} {xs : List UInt8} (form : item.Form xs) (p : Nat) : Reads p read xs item := by
  cases form with
  | @understood _ code content padding free form fits =>
    -- The reader of the content stops in front of the padding, and the item's size moves the cursor over it.
    refine reads_withHeader fits (fun b p hb => ?_) p
    rw [readVersioned, if_pos (show 4 = metadataVersion from rfl)]
    have hcontent : content.length < 2 ^ 32 := by
      rw [List.length_append] at fits
      omega
    exact ⟨_, form.reads hcontent _ _ p b hb.left⟩
  | @skipped version code body free foreign fits =>
    refine reads_withHeader fits (fun b p _ => ⟨p, ?_⟩) p
    rw [readVersioned]
    split
    · next hversion =>
      rw [readContent_of_foreign (foreign.resolve_left fun hne => hne hversion)]
      rfl
    · rfl

/-- A blob of items is read from its form, and the cursor is left behind its last item. -/
theorem BlobForm.reads {p : Nat} {items : List MetadataItem} {xs : List UInt8} (form : BlobForm p items xs) :
    Reads p readBlob xs items := by
  cases form with
  | @blob filler row few short aligned each =>
    have hcount : (UInt8.ofNat items.length).toNat = items.length := by
      rw [UInt8.toNat_ofNat', Nat.mod_eq_of_lt (by omega)]
    have hgap : filler.length = Layout.gap itemAlignment (p + 2) := by
      rw [Layout.gap, itemAlignment]
      omega
    have hparts : [4, UInt8.ofNat items.length] ++ filler ++ row = [4] ++ ([UInt8.ofNat items.length] ++ (filler ++ row)) := by
      simp
    rw [hparts]
    refine (Reads.u8 p _).bind ?_
    rw [if_pos (show 4 = metadataVersion from rfl)]
    refine (Reads.u8 _ _).bind ?_
    refine (Reads.align _ (by decide) hgap).bind ?_
    rw [hcount]
    exact Reads.times_row (each.mono fun form => form.reads) _

end MetadataItem

/-! ## What is laid out is a form -/

/-- A hoisted range is laid out in its form. -/
theorem HoistedRange.form_stored {r : HoistedRange} (h : r.offset.toNat + r.length.toNat < 2 ^ 32) : r.Form r.stored :=
  .pair h

/-- The flags of a local are told from the bytes that store them. -/
theorem DynamicLocal.map_flags (flags : List Bool) :
    (flags.map fun flag => if flag then (1 : UInt8) else 0).map (fun x => decide (x ≠ 0)) = flags := by
  induction flags with
  | nil => rfl
  | cons flag flags ih =>
    rw [List.map_cons, List.map_cons, ih]
    cases flag <;> rfl

/-- A dynamic local is laid out in a form of it. -/
theorem DynamicLocal.form_stored {d : DynamicLocal} (hf : d.flags.length ≤ dynamicFlagBytes) (hn : Layout.NulFree d.name)
    (hw : (Utf16.encode d.name.toList).length ≤ dynamicNameUnits) : d.Form d.stored := by
  rw [dynamicFlagBytes] at hf
  rw [dynamicNameUnits] at hw
  have hflags : (d.flags.map fun flag => if flag then (1 : UInt8) else 0).length +
      (List.replicate (64 - d.flags.length) (0 : UInt8)).length = 64 := by
    rw [List.length_map, List.length_replicate]
    omega
  have hunits : (Utf16.encode d.name.toList).length +
      (List.replicate (64 - (Utf16.encode d.name.toList).length) (0 : UInt16)).length = 64 := by
    rw [List.length_replicate]
    omega
  have hended : ∀ u ∈ (List.replicate (64 - (Utf16.encode d.name.toList).length) (0 : UInt16)).head?, u = 0 :=
    fun u hu => List.eq_of_mem_replicate (List.mem_of_head? hu)
  have hentry := @Form.entry _ _ d.slotIndex _ _ hflags hn hunits hended
  rw [map_flags, List.length_map] at hentry
  exact hentry

namespace MetadataItem

/-- The content of an item that can be stored is laid out in a form of it, under the code of its kind. -/
theorem contentForm_content {item : MetadataItem} (h : item.Storable) : ContentForm item item.kind.code item.content := by
  cases item with
  | usingInfo counts => exact .usingInfo h
  | forwardInfo token => exact .forwardInfo token
  | forwardToModuleInfo token => exact .forwardToModuleInfo token
  | iteratorLocals ranges => exact .iteratorLocals (.of_stored fun r hr => HoistedRange.form_stored (h.2 r hr))
  | forwardIterator className => exact .forwardIterator h
  | dynamicLocals locals =>
    refine .dynamicLocals (.of_stored fun d hd => ?_)
    exact DynamicLocal.form_stored (h.2 d hd).1 (h.2 d hd).2.1 (h.2 d hd).2.2
  | skipped => exact h.elim

/-- The codes of the kinds that are not understood are those behind the six that are. -/
theorem foreign_of_not_understood {code : UInt8} (h : (MetadataKind.ofCode code).isUnderstood = false) : 5 < code := by
  have hsix : ∀ n < 6, (MetadataKind.ofCode (UInt8.ofNat n)).isUnderstood = true := by decide
  refine UInt8.lt_iff_toNat_lt.mpr (Nat.lt_of_not_le fun hle => ?_)
  have hunderstood := hsix code.toNat (Nat.lt_succ_of_le hle)
  rw [UInt8.ofNat_toNat, h] at hunderstood
  cases hunderstood

/-- An item that can be stored is laid out in a form of the item that is read back. -/
theorem form_stored {i : StoredItem} (h : i.Storable) : i.item.Form i.stored := by
  cases i with
  | understood item padding => exact .understood (0, 0) (contentForm_content h.2) h.1
  | skipped code version content => exact .skipped (0, 0) (h.2.imp_right foreign_of_not_understood) h.1

/-- Items that can be stored are laid out in a form of the blob that is read back. -/
theorem blobForm_blob (base : Nat) {items : List StoredItem} (hc : items.length < 2 ^ 8) (h : ∀ i ∈ items, i.Storable) :
    BlobForm base (items.map StoredItem.item) (Layout.blob base items) := by
  have hgap : Layout.gap itemAlignment (base + 2) < 4 ∧ (base + 2 + Layout.gap itemAlignment (base + 2)) % 4 = 0 := by
    rw [Layout.gap, itemAlignment]
    omega
  have hrow : Layout.Row Form (items.map StoredItem.item) (items.flatMap StoredItem.stored) :=
    .map fun i hi => form_stored (h i hi)
  have hblob := @BlobForm.blob base _ (List.replicate (Layout.gap itemAlignment (base + 2)) 0) _
    (by rw [List.length_map]; omega) (by rw [List.length_replicate]; exact hgap.1)
    (by rw [List.length_replicate]; exact hgap.2) hrow
  rwa [List.length_map] at hblob

/-- A blob of items is read where it is stored, and the cursor is left behind its last item. -/
theorem readBlob_reads (p : Nat) {items : List StoredItem} (hc : items.length < 2 ^ 8) (h : ∀ i ∈ items, i.Storable) :
    Reads p readBlob (Layout.blob p items) (items.map StoredItem.item) :=
  (blobForm_blob p hc h).reads

end MetadataItem

theorem SuspensionPoint.reads (p : Nat) (s : SuspensionPoint) : Reads p SuspensionPoint.read s.stored s := by
  simp only [SuspensionPoint.stored, List.append_assoc]
  refine (Reads.u32 p s.yieldOffset).bind ?_
  refine ((Reads.u32 _ s.resumeMethod.value).map Token.mk).bind ?_
  exact (Reads.u32 _ s.resumeOffset).bind_pure _

theorem Synchronization.reads (p : Nat) {s : Synchronization} (h : s.points.length < 2 ^ 32) :
    Reads p Synchronization.read s.stored s := by
  have hc : (UInt32.ofNat s.points.length).toNat = s.points.length := by rw [UInt32.toNat_ofNat', Nat.mod_eq_of_lt h]
  simp only [Synchronization.stored, List.append_assoc]
  refine ((Reads.u32 p s.kickoffMethod.value).map Token.mk).bind ?_
  refine (Reads.u32 _ s.catchHandlerOffset).bind ?_
  refine (Reads.u32 _ (UInt32.ofNat s.points.length)).bind ?_
  rw [hc]
  exact (Reads.times (fun x _ q => SuspensionPoint.reads q x) _).bind_pure _

end ManagedSymbols
