import Mathlib.Data.List.Forall2
import Mathlib.Data.List.Induction
import FrontEnd.Report.Options

/-!
# Arguments of a listing

Arguments are read one after another, each in the light of those before it. What they ask for
together is said without the order of reading (`Report.Arguments.ofList_eq`): the path is the first
argument without a leading dash, an option is set where it stands anywhere, and every other argument
is warned about, in order.

`Report.Arguments.asks_of_any_order` says so argument by argument (`Report.Arguments.Asks`), with
what follows from it: only the order of the arguments without a leading dash matters to the path and
the options, and a flag that stands among the arguments may stand there again.
-/

namespace FrontEnd.Report

/-- The options that stand among the arguments. -/
def Options.among (args : List String) : Options where
  stopOnUnknown := decide ("--stop-on-unknown" ∈ args)
  summary := decide ("--summary" ∈ args)
  positions := decide ("--positions" ∈ args)

/-- The arguments that are options. -/
def Options.names : List String := ["--stop-on-unknown", "--summary", "--positions"]

/-- The warning about an argument that is not the path. -/
def warning? (arg : String) : Option Warning :=
  if arg ∈ Options.names then none
  else if Arguments.isFlag arg then some (.unknownOption arg)
  else some (.extraArgument arg)

namespace Arguments

/-- The first argument that can be a path. -/
def path? (args : List String) : Option String := args.find? (!isFlag ·)

/-- The warnings about all arguments but the path. -/
def warningsOf (args : List String) : List Warning :=
  (args.eraseP (!isFlag ·)).filterMap warning?

theorem isFlag_of_mem_names : ∀ name ∈ Options.names, isFlag name = true := by decide

theorem path?_append_singleton (args : List String) (arg : String) :
    path? (args ++ [arg]) = (path? args).or (if isFlag arg then none else some arg) := by
  rw [path?, List.find?_append, ← path?]
  cases hflag : isFlag arg <;> simp [hflag]

theorem warningsOf_append_singleton (args : List String) (arg : String) :
    warningsOf (args ++ [arg]) =
      warningsOf args ++
        if isFlag arg = false ∧ path? args = none then [] else (warning? arg).toList := by
  have hlast : [arg].filterMap warning? = (warning? arg).toList := by
    cases h : warning? arg <;> simp [h]
  rw [warningsOf, List.eraseP_append]
  cases hpath : path? args with
  | none =>
    have hall := List.find?_eq_none.1 hpath
    rw [if_neg (by simpa using hall), List.filterMap_append, warningsOf,
      List.eraseP_of_forall_not hall]
    cases hflag : isFlag arg with
    | false =>
      rw [List.eraseP_cons_of_pos (by rw [hflag]; rfl), if_pos ⟨rfl, rfl⟩]
      rfl
    | true =>
      rw [List.eraseP_cons_of_neg (by rw [hflag]; decide), List.eraseP_nil, hlast,
        if_neg (by simp)]
  | some path =>
    have hany := List.any_eq_true.2 ⟨path, List.mem_of_find?_eq_some hpath, List.find?_some hpath⟩
    rw [if_pos hany, List.filterMap_append, ← warningsOf, hlast, if_neg (by simp)]

/-- What the arguments ask for together. -/
theorem ofList_eq (args : List String) :
    ofList args = ⟨path? args, .among args, warningsOf args⟩ := by
  induction args using List.reverseRecOn with
  | nil => rfl
  | append_singleton args arg ih =>
    rw [ofList, List.foldl_append, ← ofList, ih, List.foldl_cons, List.foldl_nil,
      path?_append_singleton, warningsOf_append_singleton]
    by_cases hname : arg ∈ Options.names
    · have hflag := isFlag_of_mem_names arg hname
      simp only [Options.names, List.mem_cons, List.not_mem_nil, or_false] at hname
      rcases hname with rfl | rfl | rfl <;> simp [add, hflag, warning?, Options.names, Options.among]
    · have hwarning : warning? arg =
          if isFlag arg then some (.unknownOption arg) else some (.extraArgument arg) :=
        if_neg hname
      simp only [Options.names, List.mem_cons, List.not_mem_nil, or_false, not_or] at hname
      obtain ⟨hstop, hsummary, hpositions⟩ := hname
      have hoptions : Options.among (args ++ [arg]) = .among args := by
        simp [Options.among, Ne.symm hstop, Ne.symm hsummary, Ne.symm hpositions]
      rw [add, if_neg hstop, if_neg hsummary, if_neg hpositions, hoptions, hwarning]
      cases isFlag arg with
      | true => cases path? args <;> simp
      | false => cases path? args <;> simp

/-! ## Argument by argument -/

/-- Argument `i` is warned about with `w`: it has a leading dash and is no option, or neither it nor
one before it has a leading dash. -/
inductive WarnsAt (args : List String) (i : Nat) : Warning → Prop where
  | unknownOption {arg : String} :
      args[i]? = some arg → isFlag arg = true → arg ∉ Options.names →
      WarnsAt args i (.unknownOption arg)
  | extraArgument {arg path : String} {j : Nat} :
      args[i]? = some arg → isFlag arg = false → j < i → args[j]? = some path →
      isFlag path = false → WarnsAt args i (.extraArgument arg)

/-- What is asked for by the arguments, each of them on its own. -/
structure Asks (args : List String) (a : Arguments) : Prop where
  path_eq_some_iff : ∀ path, a.path = some path ↔
    ∃ before after, args = before ++ path :: after ∧ isFlag path = false ∧
      ∀ arg ∈ before, isFlag arg = true
  path_eq_none_iff : a.path = none ↔ ∀ arg ∈ args, isFlag arg = true
  stopOnUnknown_iff : a.options.stopOnUnknown = true ↔ "--stop-on-unknown" ∈ args
  summary_iff : a.options.summary = true ↔ "--summary" ∈ args
  positions_iff : a.options.positions = true ↔ "--positions" ∈ args
  /-- One warning for each argument that is warned about, in their order. -/
  warnings : ∃ is : List Nat, is.Pairwise (· < ·) ∧ (∀ i, i ∈ is ↔ ∃ w, WarnsAt args i w) ∧
    List.Forall₂ (WarnsAt args) is a.warnings

section Warnings

variable {args : List String} {arg : String} {i : Nat} {w : Warning}

theorem WarnsAt.lt_length (h : WarnsAt args i w) : i < args.length := by
  cases h with
  | unknownOption hi | extraArgument hi => exact (List.getElem?_eq_some_iff.1 hi).1

/-- A further argument changes nothing for those before it. -/
theorem warnsAt_append_of_lt (hi : i < args.length) :
    WarnsAt (args ++ [arg]) i w ↔ WarnsAt args i w := by
  have hbefore (j : Nat) (hj : j < args.length) : (args ++ [arg])[j]? = args[j]? :=
    List.getElem?_append_left hj
  constructor
  · intro h
    cases h with
    | unknownOption hget hflag hname => exact .unknownOption (hbefore i hi ▸ hget) hflag hname
    | extraArgument hget hflag hj hpath hfile =>
      exact .extraArgument (hbefore i hi ▸ hget) hflag hj (hbefore _ (Nat.lt_trans hj hi) ▸ hpath) hfile
  · intro h
    cases h with
    | unknownOption hget hflag hname =>
      exact .unknownOption ((hbefore i hi).trans hget) hflag hname
    | extraArgument hget hflag hj hpath hfile =>
      exact .extraArgument ((hbefore i hi).trans hget) hflag hj
        ((hbefore _ (Nat.lt_trans hj hi)).trans hpath) hfile

/-- The last argument is warned about by itself, unless it is the path. -/
theorem warnsAt_append_length :
    WarnsAt (args ++ [arg]) args.length w ↔
      ¬(isFlag arg = false ∧ path? args = none) ∧ warning? arg = some w := by
  have hlast : (args ++ [arg])[args.length]? = some arg := List.getElem?_concat_length
  constructor
  · intro h
    cases h with
    | unknownOption hget hflag hname =>
      obtain rfl := Option.some.inj (hlast.symm.trans hget)
      refine ⟨fun hpath => ?_, by rw [warning?, if_neg hname, if_pos hflag]⟩
      rw [hflag] at hpath
      cases hpath.1
    | @extraArgument _ path j hget hflag hj hpath hfile =>
      obtain rfl := Option.some.inj (hlast.symm.trans hget)
      rw [List.getElem?_append_left hj] at hpath
      refine ⟨fun hnone => ?_, ?_⟩
      · have hall := List.find?_eq_none.1 hnone.2 path (List.mem_of_getElem? hpath)
        simp [hfile] at hall
      · have hname : arg ∉ Options.names := fun hmem => by
          rw [isFlag_of_mem_names arg hmem] at hflag
          cases hflag
        rw [warning?, if_neg hname, if_neg (by rw [hflag]; decide)]
  · rintro ⟨hpath, hwarning⟩
    rw [warning?] at hwarning
    split at hwarning
    · cases hwarning
    · rename_i hname
      split at hwarning
      · rename_i hflag
        cases hwarning
        exact .unknownOption hlast hflag hname
      · rename_i hflag
        cases hwarning
        rw [Bool.not_eq_true] at hflag
        obtain ⟨path, hfound⟩ := Option.ne_none_iff_exists'.1 fun hnone => hpath ⟨hflag, hnone⟩
        obtain ⟨j, hj⟩ := List.mem_iff_getElem?.1 (List.mem_of_find?_eq_some hfound)
        have hlt := (List.getElem?_eq_some_iff.1 hj).1
        exact .extraArgument hlast hflag hlt ((List.getElem?_append_left hlt).trans hj)
          (by simpa using List.find?_some hfound)

/-- The warnings are those of the arguments that are warned about, in order. -/
theorem exists_warnsAt_indices (args : List String) :
    ∃ is : List Nat, is.Pairwise (· < ·) ∧ (∀ i, i ∈ is ↔ ∃ w, WarnsAt args i w) ∧
      List.Forall₂ (WarnsAt args) is (warningsOf args) := by
  induction args using List.reverseRecOn with
  | nil =>
    refine ⟨[], .nil, fun i => ⟨nofun, fun ⟨w, h⟩ => ?_⟩, .nil⟩
    exact absurd h.lt_length (Nat.not_lt_zero i)
  | append_singleton args arg ih =>
    obtain ⟨is, hsorted, hmem, hall⟩ := ih
    have hlt : ∀ i ∈ is, i < args.length := fun i hi =>
      let ⟨_, h⟩ := (hmem i).1 hi
      h.lt_length
    have hkept : List.Forall₂ (WarnsAt (args ++ [arg])) is (warningsOf args) :=
      hall.imp fun _ _ h => (warnsAt_append_of_lt h.lt_length).2 h
    have hmem_of_lt (i : Nat) (hi : i < args.length) :
        i ∈ is ↔ ∃ w, WarnsAt (args ++ [arg]) i w := by
      simp only [hmem, warnsAt_append_of_lt hi]
    have hindex {i : Nat} {w : Warning} (h : WarnsAt (args ++ [arg]) i w) (hi : ¬i < args.length) :
        i = args.length := by
      have := h.lt_length
      rw [List.length_append, List.length_singleton] at this
      omega
    rw [warningsOf_append_singleton]
    by_cases hlast : ∃ w, WarnsAt (args ++ [arg]) args.length w
    · obtain ⟨w, hw⟩ := hlast
      obtain ⟨hpath, hwarning⟩ := warnsAt_append_length.1 hw
      rw [if_neg hpath, hwarning, Option.toList_some]
      refine ⟨is ++ [args.length], ?_, fun i => ?_, List.rel_append hkept (.cons hw .nil)⟩
      · rw [List.pairwise_append]
        exact ⟨hsorted, List.pairwise_singleton _ _, by simpa using hlt⟩
      · rw [List.mem_append, List.mem_singleton]
        by_cases hi : i < args.length
        · rw [or_iff_left (Nat.ne_of_lt hi), hmem_of_lt i hi]
        · rw [or_iff_right fun h => hi (hlt i h)]
          exact ⟨fun h => ⟨w, h ▸ hw⟩, fun ⟨_, h⟩ => hindex h hi⟩
    · have hnone : (if isFlag arg = false ∧ path? args = none then [] else (warning? arg).toList) =
          [] := by
        split
        · rfl
        · rename_i hpath
          cases hwarning : warning? arg with
          | none => rfl
          | some w => exact absurd ⟨w, warnsAt_append_length.2 ⟨hpath, hwarning⟩⟩ hlast
      rw [hnone, List.append_nil]
      refine ⟨is, hsorted, fun i => ?_, hkept⟩
      by_cases hi : i < args.length
      · exact hmem_of_lt i hi
      · refine iff_of_false (fun h => hi (hlt i h)) fun ⟨w, h⟩ => hlast ⟨w, ?_⟩
        rwa [hindex h hi] at h

end Warnings

theorem asks_ofList (args : List String) : Asks args (ofList args) := by
  rw [ofList_eq]
  refine ⟨fun path => ?_, ?_, decide_eq_true_iff, decide_eq_true_iff, decide_eq_true_iff,
    exists_warnsAt_indices args⟩
  · show path? args = some path ↔ _
    simp only [path?, List.find?_eq_some_iff_append, Bool.not_eq_true', Bool.not_not]
    exact ⟨fun ⟨hfile, before, after, hargs, hbefore⟩ => ⟨before, after, hargs, hfile, hbefore⟩,
      fun ⟨before, after, hargs, hfile, hbefore⟩ => ⟨hfile, before, after, hargs, hbefore⟩⟩
  · show path? args = none ↔ _
    simp [path?]

/-! ## The order of the arguments -/

/-- Only the arguments without a leading dash decide the path, the first of them. -/
theorem path?_congr {args args' : List String}
    (h : args'.filter (!isFlag ·) = args.filter (!isFlag ·)) : path? args' = path? args := by
  rw [path?, path?, ← List.head?_filter, h, List.head?_filter]

theorem among_congr {args args' : List String} (h : ∀ arg, arg ∈ args' ↔ arg ∈ args) :
    Options.among args' = .among args := by
  simp only [Options.among, h]

/-- A flag more, among arguments that hold it. -/
theorem mem_repeated_iff {before after : List String} {flag : String} (h : flag ∈ before ++ after)
    (arg : String) : arg ∈ before ++ flag :: after ↔ arg ∈ before ++ after := by
  simp only [List.mem_append, List.mem_cons] at h ⊢
  constructor
  · rintro (hmem | rfl | hmem)
    · exact .inl hmem
    · exact h
    · exact .inr hmem
  · rintro (hmem | hmem)
    · exact .inl hmem
    · exact .inr (.inr hmem)

/-- An option is never warned about. -/
theorem warningsOf_repeated {before after : List String} {flag : String}
    (h : flag ∈ Options.names) :
    warningsOf (before ++ flag :: after) = warningsOf (before ++ after) := by
  have hwarning : warning? flag = none := if_pos h
  have herase : (flag :: after).eraseP (!isFlag ·) = flag :: after.eraseP (!isFlag ·) :=
    List.eraseP_cons_of_neg (by rw [isFlag_of_mem_names flag h]; decide)
  simp only [warningsOf, List.eraseP_append, herase]
  split <;> simp only [List.filterMap_append, List.filterMap_cons_none hwarning]

/-- What arguments ask for, and what does not change it: each of them counts on its own, for the
path and the options no order counts but that of the arguments without a leading dash, and a flag
may be repeated anywhere. A repeated option is not even warned about. -/
theorem asks_of_any_order (args : List String) :
    Asks args (ofList args) ∧
      (∀ args', args'.Perm args → args'.filter (!isFlag ·) = args.filter (!isFlag ·) →
        (ofList args').path = (ofList args).path ∧ (ofList args').options = (ofList args).options) ∧
      ∀ before after flag, before ++ after = args → flag ∈ args → isFlag flag = true →
        (ofList (before ++ flag :: after)).path = (ofList args).path ∧
          (ofList (before ++ flag :: after)).options = (ofList args).options ∧
          (flag ∈ Options.names → ofList (before ++ flag :: after) = ofList args) := by
  refine ⟨asks_ofList args, fun args' hperm hfiles => ?_, ?_⟩
  · rw [ofList_eq, ofList_eq]
    exact ⟨path?_congr hfiles, among_congr fun _ => hperm.mem_iff⟩
  · rintro before after flag rfl hmem hflag
    have hpath : path? (before ++ flag :: after) = path? (before ++ after) :=
      path?_congr (by simp [hflag])
    have hoptions : Options.among (before ++ flag :: after) = .among (before ++ after) :=
      among_congr (mem_repeated_iff hmem)
    rw [ofList_eq, ofList_eq]
    refine ⟨hpath, hoptions, fun hname => ?_⟩
    rw [hpath, hoptions, warningsOf_repeated hname]

/-- An empty argument is the path, and a dash alone or an option with a blank is a flag of no
meaning. -/
theorem asks_of_any_order_near_misses :
    let args := ["-", "", "--summary ", "--summary", "b", "--positions"]
    let args' := ["--positions", "", "--summary", "b", "-", "--summary "]
    Asks args (ofList args) ∧ args'.Perm args ∧
      args'.filter (!isFlag ·) = args.filter (!isFlag ·) ∧ (ofList args).path = some "" ∧
      (ofList args').path = some "" ∧
      (ofList args').options = ⟨false, true, true⟩ ∧ "--summary" ∈ args ∧
      isFlag "--summary" = true ∧ "--summary" ∈ Options.names ∧
      ofList (["-", ""] ++ "--summary" :: ["--summary ", "--summary", "b", "--positions"]) =
        ⟨some "", ⟨false, true, true⟩,
          [.unknownOption "-", .unknownOption "--summary ", .extraArgument "b"]⟩ := by
  intro args args'
  obtain ⟨hasks, hperm, hrepeat⟩ := asks_of_any_order args
  have hargs' : args'.Perm args := by decide
  have hfiles : args'.filter (!isFlag ·) = args.filter (!isFlag ·) := by decide
  obtain ⟨hpath, hoptions⟩ := hperm args' hargs' hfiles
  have hmem : "--summary" ∈ args := by decide
  have hflag : isFlag "--summary" = true := by decide
  have hname : "--summary" ∈ Options.names := by decide
  obtain ⟨-, -, hsame⟩ := hrepeat ["-", ""] ["--summary ", "--summary", "b", "--positions"]
    "--summary" rfl hmem hflag
  have hvalue : ofList args = ⟨some "", ⟨false, true, true⟩,
      [.unknownOption "-", .unknownOption "--summary ", .extraArgument "b"]⟩ := by decide
  exact ⟨hasks, hargs', hfiles, by rw [hvalue], by rw [hpath, hvalue], by rw [hoptions, hvalue],
    hmem, hflag, hname, (hsame hname).trans hvalue⟩

end Arguments

end FrontEnd.Report
