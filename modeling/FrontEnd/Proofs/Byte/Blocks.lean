import FrontEnd.Byte.Blocks
import FrontEnd.Proofs.Position.Reached

/-!
# What blocks answer

What is asked of bytes in blocks is answered as for the bytes written out: their number and how
often one is among them (`length_toList`, `count_toList`), the first of them
(`toList_of_uncons?_some`), where one of a class is first (`toList_breakAt`) or a line feed last
(`lastLineLength_toList`), and what stands before and behind an offset (`toList_splitAt`).
-/

namespace FrontEnd.Byte

namespace Block

theorem toList_zero (unit : List UInt8) : toList ⟨unit, 0⟩ = [] := rfl

theorem toList_one (unit : List UInt8) : toList ⟨unit, 1⟩ = unit := by
  rw [toList, List.replicate_one, List.flatten_singleton]

theorem toList_singleton (x : UInt8) (n : Nat) : toList ⟨[x], n⟩ = List.replicate n x :=
  List.flatten_replicate_singleton

theorem toList_nil (n : Nat) : toList ⟨[], n⟩ = [] := by
  rw [toList, List.flatten_replicate_nil]

theorem toList_add (unit : List UInt8) (m n : Nat) :
    toList ⟨unit, m + n⟩ = toList ⟨unit, m⟩ ++ toList ⟨unit, n⟩ := by
  rw [toList, toList, toList, ← List.flatten_append, List.replicate_append_replicate]

theorem toList_succ (unit : List UInt8) (n : Nat) :
    toList ⟨unit, n + 1⟩ = unit ++ toList ⟨unit, n⟩ := by
  rw [Nat.add_comm, toList_add, toList_one]

theorem length_toList (b : Block) : b.toList.length = b.length := by
  rw [toList, List.length_flatten, List.map_replicate, List.sum_replicate_nat, length]

theorem count_toList (x : UInt8) (b : Block) : b.toList.count x = b.times * b.unit.count x := by
  rw [toList, List.count_flatten, List.map_replicate, List.sum_replicate_nat]

theorem mem_toList_iff {x : UInt8} {b : Block} (h : b.times ≠ 0) :
    x ∈ b.toList ↔ x ∈ b.unit := by
  rw [toList, List.mem_flatten]
  exact ⟨fun ⟨_, hl, hx⟩ => List.eq_of_mem_replicate hl ▸ hx,
    fun hx => ⟨b.unit, List.mem_replicate.2 ⟨h, rfl⟩, hx⟩⟩

/-- The units before an offset, the one that it is in, and those behind it. -/
theorem toList_split {unit : List UInt8} {times n : Nat} (h : n < length ⟨unit, times⟩) :
    toList ⟨unit, times⟩ = toList ⟨unit, n / unit.length⟩ ++
        (unit ++ toList ⟨unit, times - n / unit.length - 1⟩) ∧
      (toList ⟨unit, n / unit.length⟩).length + n % unit.length = n ∧
      n % unit.length ≤ unit.length := by
  have hpos : 0 < unit.length := Nat.pos_of_ne_zero fun hzero => by
    rw [length, hzero, Nat.mul_zero] at h
    exact Nat.not_lt_zero _ h
  have hwhole : n / unit.length < times := (Nat.div_lt_iff_lt_mul hpos).2 h
  refine ⟨?_, ?_, Nat.le_of_lt (Nat.mod_lt _ hpos)⟩
  · rw [← toList_succ, ← toList_add]
    congr 2
    omega
  · rw [length_toList, length]
    exact Nat.div_add_mod' n unit.length

end Block

namespace Blocks

theorem toList_cons (b : Block) (bs : Blocks) : toList (b :: bs) = b.toList ++ toList bs :=
  List.flatMap_cons

theorem toList_push (b : Block) (bs : Blocks) : (push b bs).toList = b.toList ++ bs.toList := by
  unfold push
  split
  · rename_i htimes
    rw [Block.toList, htimes]
    rfl
  · exact toList_cons b bs

theorem length_toList (bs : Blocks) : bs.toList.length = bs.length := by
  induction bs with
  | nil => rfl
  | cons b bs ih => rw [toList_cons, List.length_append, Block.length_toList, ih, length]

theorem count_toList (x : UInt8) (bs : Blocks) : bs.toList.count x = bs.count x := by
  induction bs with
  | nil => rfl
  | cons b bs ih => rw [toList_cons, List.count_append, Block.count_toList, ih, count]

theorem toList_of_uncons?_none {bs : Blocks} (h : bs.uncons? = none) : bs.toList = [] := by
  fun_induction uncons? bs with
  | case1 => rfl
  | case2 unit bs ih => rw [toList_cons, Block.toList_zero, List.nil_append, ih h]
  | case3 n bs ih => rw [toList_cons, Block.toList_nil, List.nil_append, ih h]
  | case4 => cases h

theorem toList_of_uncons?_some {bs rest : Blocks} {x : UInt8} (h : bs.uncons? = some (x, rest)) :
    bs.toList = x :: rest.toList := by
  fun_induction uncons? bs with
  | case1 => cases h
  | case2 unit bs ih => rw [toList_cons, Block.toList_zero, List.nil_append, ih h]
  | case3 n bs ih => rw [toList_cons, Block.toList_nil, List.nil_append, ih h]
  | case4 y unit n bs =>
    cases h
    rw [toList_cons, Block.toList_succ, toList_cons, toList_push, Block.toList_one,
      List.cons_append, List.cons_append, List.append_assoc]

/-- A list breaks within a part that holds an element of the class. -/
theorem break_append_of_any {p : UInt8 → Bool} {xs : List UInt8} (h : xs.any p = true)
    (ys : List UInt8) :
    (xs ++ ys).takeWhile (!p ·) = xs.takeWhile (!p ·) ∧
      (xs ++ ys).dropWhile (!p ·) = xs.dropWhile (!p ·) ++ ys := by
  induction xs with
  | nil => cases h
  | cons x xs ih =>
    cases hx : p x with
    | true => simp [hx]
    | false =>
      rw [List.any_cons, hx, Bool.false_or] at h
      obtain ⟨htake, hdrop⟩ := ih h
      simp [hx, htake, hdrop]

theorem toList_breakAt (p : UInt8 → Bool) (bs : Blocks) :
    (bs.breakAt p).1.toList = bs.toList.takeWhile (!p ·) ∧
      (bs.breakAt p).2.toList = bs.toList.dropWhile (!p ·) := by
  induction bs with
  | nil => exact ⟨rfl, rfl⟩
  | cons b bs ih =>
    rw [breakAt, toList_cons]
    split
    · rename_i hnone
      have hall (x : UInt8) (hx : x ∈ b.toList) : (!p x) = true := by
        have htimes : b.times ≠ 0 := fun htimes => by
          rw [Block.toList, htimes] at hx
          cases hx
        have hfalse := List.any_eq_false.1 (hnone.resolve_left htimes) x
          ((Block.mem_toList_iff htimes).1 hx)
        simpa using hfalse
      rw [List.takeWhile_append_of_pos hall, List.dropWhile_append_of_pos hall, ← ih.1, ← ih.2]
      exact ⟨toList_cons _ _, rfl⟩
    · rename_i hsome
      obtain ⟨unit, times⟩ := b
      obtain ⟨htimes, hunit⟩ := not_or.1 hsome
      obtain ⟨n, rfl⟩ := Nat.exists_eq_succ_of_ne_zero htimes
      obtain ⟨htake, hdrop⟩ := break_append_of_any (by simpa using hunit)
        (Block.toList ⟨unit, n⟩ ++ toList bs)
      rw [Block.toList_succ, List.append_assoc, htake, hdrop]
      simp only [toList_cons, toList_push, Block.toList_one, Nat.succ_sub_one]
      exact ⟨List.append_nil _, trivial⟩

theorem toList_splitAt (n : Nat) (bs : Blocks) :
    (bs.splitAt n).1.toList = bs.toList.take n ∧ (bs.splitAt n).2.toList = bs.toList.drop n := by
  induction bs generalizing n with
  | nil => simp [splitAt, toList]
  | cons b bs ih =>
    obtain ⟨unit, times⟩ := b
    have hlength := Block.length_toList ⟨unit, times⟩
    rw [splitAt]
    split
    · rename_i hle
      obtain ⟨hbefore, hrest⟩ := ih (n - Block.length ⟨unit, times⟩)
      simp only [toList_cons, hbefore, hrest]
      rw [List.take_append, List.drop_append, hlength,
        List.take_of_length_le (Nat.le_trans (Nat.le_of_eq hlength) hle),
        List.drop_eq_nil_of_le (Nat.le_trans (Nat.le_of_eq hlength) hle), List.nil_append]
      exact ⟨rfl, rfl⟩
    · rename_i hlt
      obtain ⟨hsplit, hn, hends⟩ := Block.toList_split (Nat.not_le.1 hlt)
      simp only [toList_cons, toList_push, Block.toList_one, hsplit, List.append_assoc]
      generalize n / unit.length = whole at hn ⊢
      generalize n % unit.length = part at hn hends ⊢
      rw [← hn, List.take_length_add_append, List.drop_length_add_append,
        List.take_append_of_le_length hends, List.drop_append_of_le_length hends]
      exact ⟨congrArg _ (List.append_nil _), rfl⟩

/-- The last line is what stands behind the last line feed of the last block that holds one. -/
theorem lastLineLength_toList (bs : Blocks) :
    Position.lastLineLength bs.toList = bs.lengthAfterLast newline := by
  -- The fold holds the length of the last line of the bytes before the blocks to come.
  suffices h : ∀ done : List UInt8, Position.lastLineLength (done ++ bs.toList) =
      bs.foldl (fun n b =>
        if b.times = 0 then n
        else if newline ∈ b.unit then Position.lastLineLength b.unit
        else n + b.length) (Position.lastLineLength done) from h []
  induction bs with
  | nil => exact fun done => congrArg _ (List.append_nil done)
  | cons b bs ih =>
    intro done
    rw [toList_cons, ← List.append_assoc, ih, List.foldl_cons]
    congr 1
    split
    · rename_i htimes
      rw [Block.toList, htimes]
      exact congrArg _ (List.append_nil done)
    · rename_i htimes
      split
      · rename_i hmem
        obtain ⟨unit, times⟩ := b
        obtain ⟨n, rfl⟩ := Nat.exists_eq_succ_of_ne_zero htimes
        rw [Nat.succ_eq_add_one, Block.toList_add, Block.toList_one, ← List.append_assoc,
          Position.lastLineLength_append_of_mem _ hmem]
      · rename_i hmem
        rw [Position.lastLineLength_append_of_not_mem _ (mt (Block.mem_toList_iff htimes).1 hmem),
          Block.length_toList]

end Blocks

end FrontEnd.Byte
