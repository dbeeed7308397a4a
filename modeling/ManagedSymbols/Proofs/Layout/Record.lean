import ManagedSymbols.Layout.Module
import ManagedSymbols.Proofs.Reader.Texts
import ManagedSymbols.Proofs.Record.Scan

/-!
# Records are framed where they are stored

The framing of a stored record is read back (`RecordHeader.frame_of_holds`), and a handler that goes well on it is a step of the
scan that ends behind the record (`ScanStep.behind`) or, for an opener, where the handler jumps to (`ScanStep.jumping`). The
terminator of a body is consumed where it is stored.
-/

namespace ManagedSymbols

open Reader

/-- The framing of a record of a kind and a body that is stored at a position. -/
def Layout.header (p : Nat) (kind : RecordKind) (body : List UInt8) : RecordHeader where
  kind := kind
  length := UInt16.ofNat (body.length + 2)
  offset := p
  stop := p + 4 + body.length

/-- A stored record is four bytes longer than its body. -/
@[simp] theorem Layout.length_record (kind : RecordKind) (body : List UInt8) :
    (record kind body).length = body.length + 4 := by
  simp only [record, List.length_append, length_word16]
  omega

/-- A code gives a kind that is told from its code. -/
theorem RecordKind.ofCode_code_ofCode (code : UInt16) : ofCode (ofCode code).code = ofCode code := by
  rw [code_ofCode]

namespace RecordHeader

variable {b : Buffer} {p limit : Nat} {kind : RecordKind} {body : List UInt8}

/-- The declared length of a record that can be stored is that of its body and its kind. -/
theorem length_header (p : Nat) (kind : RecordKind) (hlen : body.length + 2 < 2 ^ 16) :
    (Layout.header p kind body).length.toNat = body.length + 2 := by
  rw [Layout.header, UInt16.toNat_ofNat', Nat.mod_eq_of_lt hlen]

/-- The framing of a record is read where the record is stored. -/
theorem frame_of_holds (hk : RecordKind.ofCode kind.code = kind) (hlen : body.length + 2 < 2 ^ 16)
    (hb : b.Holds p (Layout.record kind body)) (hp : p + 4 + body.length ≤ limit) :
    frame limit b p = (.ok (Layout.header p kind body), p + 4) := by
  have hl := length_header p kind hlen
  have hs := hb.le_size
  have hsize := b.size_lt
  have hread : Reads p read (Layout.word16 (UInt16.ofNat (body.length + 2)) ++ Layout.word16 kind.code)
      (Layout.header p kind body) := by
    refine (Reads.position p).bind_nil ?_
    refine (Reads.u16 p _).bind ?_
    refine (Reads.position _).bind_nil ?_
    simp only [Layout.header] at hl
    simp only [Layout.length_record, Buffer.size] at hs
    simp only [Layout.length_word16, hl]
    refine (Reads.fits _ (by omega)).bind_nil ?_
    have hstop : p + 2 + (body.length + 2) = p + 4 + body.length := by omega
    rw [hstop]
    have := (Reads.u16 (p + 2) kind.code).bind_pure
      (fun code => (⟨RecordKind.ofCode code, UInt16.ofNat (body.length + 2), p, p + 4 + body.length⟩ : RecordHeader))
    rwa [hk] at this
  have hcheck : (Layout.header p kind body).checkFrame limit = .ok () := by
    have h2 : ¬ (Layout.header p kind body).length < 2 := by
      rw [UInt16.lt_iff_toNat_lt, hl]
      simp
    rw [checkFrame, if_neg (by simp only [Layout.header]; omega), if_neg h2]
  rw [frame, run_bind_ok (hread b hb.left), hcheck]
  rfl

/-- A record whose body is long enough holds the fixed fields of its kind. -/
theorem fixedLayout_header (hlen : body.length + 2 < 2 ^ 16) (hmin : kind.minimumLength ≤ body.length + 2) :
    (Layout.header p kind body).fixedLayout = .ok () := by
  rw [fixedLayout, if_neg]
  rw [length_header p kind hlen]
  exact Nat.not_lt.mpr hmin

/-- A terminator behind the record and inside the range is accepted. -/
theorem checkedEnd_of_le {h : RecordHeader} {stop : Nat} (hstop : stop < 2 ^ 32) (hh : h.stop ≤ stop)
    (hl : stop + terminatorSize ≤ limit) : h.checkedEnd (UInt32.ofNat stop) limit = .ok stop := by
  have hn : (UInt32.ofNat stop).toNat = stop := by rw [UInt32.toNat_ofNat', Nat.mod_eq_of_lt hstop]
  rw [checkedEnd, hn, if_neg (by omega), if_neg (by omega)]

/-- The terminator that an opener declares is read behind the link to the enclosing record. -/
theorem declaredEnd_of_holds {h : RecordHeader} {parent : UInt32} {stop : Nat} {rest : List UInt8}
    (hfix : h.fixedLayout = .ok ()) (hstop : h.checkedEnd (UInt32.ofNat stop) limit = .ok stop)
    (hb : b.Holds p (Layout.word32 parent ++ (Layout.word32 (UInt32.ofNat stop) ++ rest))) :
    h.declaredEnd limit b p = (.ok stop, p + 8) := by
  have hparent := Reads.u32 p parent b hb.left
  have hfield := Reads.u32 _ (UInt32.ofNat stop) b hb.right.left
  simp only [Layout.length_word32] at hparent hfield
  simp only [declaredEnd, hfix, run_bind, Reader.check, hparent, hfield, hstop]

end RecordHeader

/-- The parts of an opener, what it encloses and the terminator, held one behind the other. -/
theorem Buffer.Holds.opener {b : Buffer} {p : Nat} {kind : RecordKind} {fields inner : List UInt8}
    (hb : b.Holds p (Layout.record kind fields ++ inner ++ Layout.terminator)) :
    b.Holds p (Layout.record kind fields) ∧ b.Holds (p + 4 + fields.length) inner ∧
      b.Holds (p + 4 + fields.length + inner.length) Layout.terminator := by
  have hinner := hb.left.right
  have hend := hb.right
  have hstart : p + (Layout.record kind fields).length = p + 4 + fields.length := by
    rw [Layout.length_record]
    omega
  rw [hstart] at hinner
  rw [List.length_append, ← Nat.add_assoc, hstart] at hend
  exact ⟨hb.left.left, hinner, hend⟩

/-- The body of a stored record is held behind its kind. -/
theorem Buffer.Holds.body {b : Buffer} {p : Nat} {kind : RecordKind} {body : List UInt8}
    (hb : b.Holds p (Layout.record kind body)) : b.Holds (p + 4) body :=
  hb.right

namespace ScanStep

variable {σ : Type} {limit p q r : Nat} {handler : RecordHandler σ} {b : Buffer} {s t : σ} {kind : RecordKind}
  {body : List UInt8}

/-- A stored record that is handled well and says to jump is a step to the target. -/
theorem jumping (hk : RecordKind.ofCode kind.code = kind) (hlen : body.length + 2 < 2 ^ 16)
    (hb : b.Holds p (Layout.record kind body)) (hq : p + 4 + body.length ≤ q) (hlimit : q ≤ limit) (hsize : q ≤ b.size)
    (hh : handler (Layout.header p kind body) s b (p + 4) = (.ok (.jump q, t), r)) :
    ScanStep limit handler b p s (Layout.header p kind body) q t where
  inside := by omega
  framed := RecordHeader.frame_of_holds hk hlen hb (by omega)
  handled := by
    refine ⟨_, _, hh, ?_⟩
    rw [Resume.target, if_neg (by simp only [Layout.header]; omega), if_neg (by omega)]
  landed := hsize

/-- A stored record that is handled well is a step to the position behind it. -/
theorem behind (hk : RecordKind.ofCode kind.code = kind) (hlen : body.length + 2 < 2 ^ 16)
    (hb : b.Holds p (Layout.record kind body)) (hlimit : p + (Layout.record kind body).length ≤ limit)
    (hh : handler (Layout.header p kind body) s b (p + 4) = (.ok (.afterRecord, t), r)) :
    ScanStep limit handler b p s (Layout.header p kind body) (p + (Layout.record kind body).length) t where
  inside := by
    rw [Layout.length_record] at hlimit
    omega
  framed := by
    rw [Layout.length_record] at hlimit
    exact RecordHeader.frame_of_holds hk hlen hb (by omega)
  handled := by
    refine ⟨_, _, hh, ?_⟩
    rw [Resume.target, Layout.header, Layout.length_record]
    simp only [Except.ok.injEq]
    omega
  landed := hb.le_size

end ScanStep

/-- A scan that jumps from a stored opener to its terminator goes on behind the terminator, if that means nothing to the handler. -/
theorem scan_over_opener {σ : Type} {limit p stop r : Nat} {handler : RecordHandler σ} {b : Buffer} {s t : σ}
    {kind : RecordKind} {fields inner : List UInt8} (hk : RecordKind.ofCode kind.code = kind) (hlen : fields.length + 2 < 2 ^ 16)
    (hb : b.Holds p (Layout.record kind fields ++ inner ++ Layout.terminator))
    (hstop : p + 4 + fields.length + inner.length = stop) (hlimit : stop + 4 ≤ limit)
    (hjump : handler (Layout.header p kind fields) s b (p + 4) = (.ok (.jump stop, t), r))
    (hend : ∀ h : RecordHeader, h.kind = .terminator → handler h t = pure (.afterRecord, t)) :
    scan limit handler s b p = scan limit handler t b (stop + 4) := by
  obtain ⟨hrecord, _, hterminator⟩ := hb.opener
  rw [hstop] at hterminator
  have hsize := hterminator.le_size
  have first : ScanStep limit handler b p s (Layout.header p kind fields) stop t :=
    ScanStep.jumping hk hlen hrecord (by omega) (by omega) (by omega) hjump
  have hover : handler (Layout.header stop .terminator []) t b (stop + 4) = (.ok (.afterRecord, t), stop + 4) := by
    rw [hend _ rfl, run_pure]
  have second := ScanStep.behind rfl (by decide) hterminator hlimit hover
  rw [first.scan_eq, second.scan_eq]
  rfl

/-- The terminator of a body is consumed where it is stored. -/
theorem expectEnd_reads (kind : RecordKind) (p : Nat) : Reads p (expectEnd kind p) Layout.terminator () := by
  rw [Layout.terminator, Layout.record, List.append_assoc]
  refine (Reads.position p).bind_nil ?_
  refine (Reads.require p _ rfl).bind_nil ?_
  refine (Reads.u16 p _).bind ?_
  refine (Reads.u16 _ _).bind_end ?_
  exact Reads.require _ _ rfl

end ManagedSymbols
