import ManagedSymbols.Proofs.Reader.Success

/-!
# Reads that agree

Two readers are run side by side, on the same buffer and from the same cursor. Their outcomes agree (`Reader.Agree`) if both leave
the cursor at the same position with related values or with the same fault. The first one may also stop early with a fault that is
an excuse; of the second one it is then only known that a value it may still give has a property. Sequences of readers that agree
agree (`Reader.Agree.bind`).
-/

namespace ManagedSymbols.Reader

variable {α β γ δ : Type}

/-- How the outcomes of two reads agree: values are related by `R`, faults are the same, and where the first read stops with an
excuse, a value of the second one is `D`. -/
inductive Agree (R : α → β → Prop) (excuse : Fault → Prop) (D : β → Prop) :
    Except Fault α × Nat → Except Fault β × Nat → Prop where
  | ok {a : α} {c : β} {q : Nat} (related : R a c) : Agree R excuse D (.ok a, q) (.ok c, q)
  | error {e : Fault} {q : Nat} : Agree R excuse D (.error e, q) (.error e, q)
  | excused {e : Fault} {q : Nat} {outcome : Except Fault β × Nat} (given : excuse e)
      (missed : ∀ c r, outcome = (.ok c, r) → D c) : Agree R excuse D (.error e, q) outcome

namespace Agree

variable {R : α → β → Prop} {S : γ → δ → Prop} {excuse : Fault → Prop} {D : β → Prop} {E : δ → Prop} {b : Buffer} {p : Nat}

/-- An outcome agrees with itself if its value is related to itself. -/
theorem of_same {R : α → α → Prop} {D : α → Prop} {outcome : Except Fault α × Nat}
    (related : ∀ a q, outcome = (.ok a, q) → R a a) : Agree R excuse D outcome outcome := by
  obtain ⟨answer, q⟩ := outcome
  cases answer with
  | error e => exact .error
  | ok a => exact .ok (related a q rfl)

/-- Readers that agree, each with what follows it, agree if what follows agrees on related values, and if the second reader keeps
what is known of it when the first one is excused. -/
theorem bind {r : Reader α} {r' : Reader β} {next : α → Reader γ} {next' : β → Reader δ}
    (first : Agree R excuse D (r b p) (r' b p)) (follow : ∀ a c q, R a c → Agree S excuse E (next a b q) (next' c b q))
    (kept : ∀ c q d q', D c → next' c b q = (.ok d, q') → E d) :
    Agree S excuse E ((r >>= next) b p) ((r' >>= next') b p) := by
  rw [run_bind, run_bind]
  generalize r b p = outcome at first ⊢
  generalize r' b p = outcome' at first ⊢
  cases first with
  | ok related => exact follow _ _ _ related
  | error => exact .error
  | excused given missed =>
    refine .excused given fun d q' hd => ?_
    split at hd
    · next c q => exact kept c q d q' (missed c q rfl) hd
    · cases hd

/-- What follows one reader agrees if it agrees on each value that the reader gives. -/
theorem bind_same {r : Reader α} {next : α → Reader γ} {next' : α → Reader δ}
    (follow : ∀ a q, r b p = (.ok a, q) → Agree S excuse E (next a b q) (next' a b q)) :
    Agree S excuse E ((r >>= next) b p) ((r >>= next') b p) := by
  rw [run_bind, run_bind]
  split
  · next a q hr => exact follow a q hr
  · exact .error

/-- Beside a value stands a related one, at the same cursor. -/
theorem exists_of_ok {a : α} {q : Nat} {outcome : Except Fault β × Nat} (agree : Agree R excuse D (.ok a, q) outcome) :
    ∃ c, outcome = (.ok c, q) ∧ R a c := by
  cases agree with
  | ok related => exact ⟨_, rfl, related⟩

/-- A fault of the first read is that of the second one or an excuse. -/
theorem of_error {e : Fault} {q : Nat} {outcome : Except Fault β × Nat} (agree : Agree R excuse D (.error e, q) outcome) :
    outcome = (.error e, q) ∨ excuse e := by
  cases agree with
  | error => exact .inl rfl
  | excused given => exact .inr given

/-- Beside a fault of the second read stands the same fault or an excuse. -/
theorem exists_of_error {e : Fault} {q : Nat} {outcome : Except Fault α × Nat} (agree : Agree R excuse D outcome (.error e, q)) :
    outcome = (.error e, q) ∨ ∃ e', outcome.1 = .error e' ∧ excuse e' := by
  cases agree with
  | error => exact .inl rfl
  | @excused e' _ _ given => exact .inr ⟨e', rfl, given⟩

/-- A mapped read agrees with the read, the value mapped. -/
theorem of_map (f : α → β) (r : Reader α) (b : Buffer) (p : Nat) :
    Agree (fun a c => c = f a) excuse D (r b p) ((f <$> r) b p) := by
  rw [run_map]
  generalize r b p = outcome
  obtain ⟨answer, q⟩ := outcome
  cases answer with
  | error e => exact .error
  | ok a => exact .ok rfl

/-- If nothing is an excuse, a read whose values are mapped ones is the mapped read. -/
theorem eq_map {f : α → β} {outcome : Except Fault α × Nat} {outcome' : Except Fault β × Nat}
    (agree : Agree (fun a c => c = f a) excuse D outcome outcome') (strict : ∀ e, ¬ excuse e) :
    outcome' = (outcome.1.map f, outcome.2) := by
  cases agree with
  | ok related =>
    subst related
    rfl
  | error => rfl
  | excused given => exact absurd given (strict _)

/-- Less may be asked of values, and more may count as an excuse. -/
theorem mono {outcome : Except Fault α × Nat} {outcome' : Except Fault β × Nat} {R' : α → β → Prop} {excuse' : Fault → Prop}
    (agree : Agree R excuse D outcome outcome') (weaker : ∀ a c, R a c → R' a c) (wider : ∀ e, excuse e → excuse' e) :
    Agree R' excuse' D outcome outcome' := by
  cases agree with
  | ok related => exact .ok (weaker _ _ related)
  | error => exact .error
  | excused given missed => exact .excused (wider _ given) missed

end Agree

end ManagedSymbols.Reader
