/-!
# Faults and checked words

A fault is an assertion that failed while an operation ran: a sum outside its word, a difference
below zero, a range outside its buffer. It is not an answer of the domain, such as a lex error or a
refused allocation. Counters and sizes are machine words, and their arithmetic is checked:

* `Word.add32`, `Word.add64`: the sum, or a fault where it does not fit;
* `Word.sub64`: the difference, or a fault where it would be negative.

An operation that can fault on a state `σ` is an `EStateM Fault σ`: the state it leaves is kept
also when it faults. A sequence of operations answers when each of them does (`bind_eq_ok_iff`).
-/

namespace FrontEnd

/-- An assertion that failed. -/
inductive Fault where
  /-- A sum that does not fit its word. -/
  | addOverflow
  /-- A difference below zero. -/
  | subOverflow
  /-- A slice of a cursor's buffer that ends before it starts. -/
  | sliceReversed (start stop : Nat)
  /-- A slice of a cursor's buffer that ends after the bytes read. -/
  | slicePastCursor (stop pos : Nat)
  /-- A range of memory that ends before it starts. -/
  | rangeReversed (start stop : Nat)
  /-- A range that ends after the memory. -/
  | rangePastEnd (stop size : Nat)
  /-- A copy between ranges of different lengths. -/
  | lengthMismatch (source target : Nat)
  deriving DecidableEq, Repr

namespace Fault

/-- The text of a fault. -/
def message : Fault → String
  | addOverflow => "attempt to add with overflow"
  | subOverflow => "attempt to subtract with overflow"
  | sliceReversed start stop => s!"slice start {start} exceeds end {stop}"
  | slicePastCursor stop pos => s!"slice end {stop} is past the cursor {pos}"
  | rangeReversed start stop => s!"slice index starts at {start} but ends at {stop}"
  | rangePastEnd stop size => s!"range end index {stop} out of range for slice of length {size}"
  | lengthMismatch source target =>
    s!"source slice length ({source}) does not match destination slice length ({target})"

end Fault

/-- A check inside an operation: a fault stops it where it stands. -/
instance liftCheck {ε σ : Type} : MonadLift (Except ε) (EStateM ε σ) where
  monadLift x := fun s =>
    match x with
    | .ok a => .ok a s
    | .error e => .error e s

/-! ## When a sequence of operations answers -/

section Sequence

variable {ε σ α β : Type}

theorem bind_eq_ok_iff {x : EStateM ε σ α} {f : α → EStateM ε σ β} {s s' : σ} {b : β} :
    (x >>= f) s = .ok b s' ↔ ∃ a s₁, x s = .ok a s₁ ∧ f a s₁ = .ok b s' := by
  change EStateM.bind x f s = _ ↔ _
  unfold EStateM.bind
  cases x s with
  | ok a s₁ => exact ⟨fun h => ⟨a, s₁, rfl, h⟩, fun ⟨_, _, e, h⟩ => by cases e; exact h⟩
  | error e s₁ => simp

theorem pure_eq_ok_iff {a b : α} {s s' : σ} :
    (pure a : EStateM ε σ α) s = .ok b s' ↔ a = b ∧ s = s' := by
  change EStateM.Result.ok a s = .ok b s' ↔ _
  simp

theorem get_eq_ok_iff {s s' t : σ} :
    (get : EStateM ε σ σ) s = .ok t s' ↔ s = t ∧ s = s' := by
  change EStateM.Result.ok s s = .ok t s' ↔ _
  simp

theorem liftM_eq_ok_iff {x : Except ε α} {a : α} {s s' : σ} :
    (liftM x : EStateM ε σ α) s = .ok a s' ↔ x = .ok a ∧ s = s' := by
  cases x <;> simp [liftM, monadLift, MonadLift.monadLift]

/-- The operation answers, so the sequence goes on from its answer. -/
theorem bind_of_ok {x : EStateM ε σ α} {s s' : σ} {a : α} (h : x s = .ok a s')
    (f : α → EStateM ε σ β) : (x >>= f) s = f a s' := by
  change EStateM.bind x f s = _
  simp only [EStateM.bind, h]

theorem get_bind (f : σ → EStateM ε σ β) (s : σ) :
    ((get : EStateM ε σ σ) >>= f) s = f s s := rfl

theorem ok_bind (a : α) (f : α → Except ε β) : ((.ok a : Except ε α) >>= f) = f a := rfl

theorem liftM_bind_of_ok {x : Except ε α} {a : α} (h : x = .ok a) (f : α → EStateM ε σ β) (s : σ) :
    ((liftM x : EStateM ε σ α) >>= f) s = f a s := by
  subst h
  rfl

end Sequence

namespace Word

/-- The sum of two 32-bit words. -/
def add32 (a b : UInt32) : Except Fault UInt32 :=
  if a.toNat + b.toNat < UInt32.size then .ok (a + b) else .error .addOverflow

/-- The sum of two 64-bit words. -/
def add64 (a b : UInt64) : Except Fault UInt64 :=
  if a.toNat + b.toNat < UInt64.size then .ok (a + b) else .error .addOverflow

/-- The difference of two 64-bit words. -/
def sub64 (a b : UInt64) : Except Fault UInt64 :=
  if b ≤ a then .ok (a - b) else .error .subOverflow

theorem add32_eq_ok {a b c : UInt32} : add32 a b = .ok c ↔ a.toNat + b.toNat = c.toNat := by
  have hc := c.toNat_lt
  unfold add32
  split <;> rename_i h <;> simp only [UInt32.size] at h
  · rw [Except.ok.injEq, ← UInt32.toNat_inj, UInt32.toNat_add, Nat.mod_eq_of_lt h]
  · simp only [reduceCtorEq, false_iff]; omega

theorem add64_eq_ok {a b c : UInt64} : add64 a b = .ok c ↔ a.toNat + b.toNat = c.toNat := by
  have hc := c.toNat_lt
  unfold add64
  split <;> rename_i h <;> simp only [UInt64.size] at h
  · rw [Except.ok.injEq, ← UInt64.toNat_inj, UInt64.toNat_add, Nat.mod_eq_of_lt h]
  · simp only [reduceCtorEq, false_iff]; omega

theorem sub64_eq_ok {a b c : UInt64} : sub64 a b = .ok c ↔ b.toNat + c.toNat = a.toNat := by
  unfold sub64
  split <;> rename_i h <;> rw [UInt64.le_iff_toNat_le] at h
  · rw [Except.ok.injEq, ← UInt64.toNat_inj,
      UInt64.toNat_sub_of_le _ _ (UInt64.le_iff_toNat_le.2 h)]
    omega
  · simp only [reduceCtorEq, false_iff]; omega

end Word

end FrontEnd
