import Mathlib.Data.Finset.Card
import Reckoner.Proofs.Bindings

/-!
# The environment as a sorted table

Whatever calls set names in an environment, a name holds what the last call for it has set, the size
counts the names that were set, and a search lists the names with a given beginning in order
(`environment_is_sorted_map`). The search looks at one stretch of the sorted names only. That is
enough because all names with one beginning stand together (`prefix_of_between`).
-/

namespace Reckoner

/-! ## Names that begin alike -/

/-- A name between a beginning and a name that has it has it too. -/
theorem prefix_of_between {start low high : Text} (hlow : ¬ low < start) (hlt : low < high)
    (hhigh : start <+: high) : start <+: low := by
  induction start generalizing low high with
  | nil => exact List.nil_prefix
  | cons u start ih =>
    obtain ⟨rest, rfl⟩ := hhigh
    cases low with
    | nil => exact absurd (List.nil_lt_cons u start) hlow
    | cons v low =>
      rw [List.cons_lt_cons_iff] at hlow
      rw [List.cons_append, List.cons_lt_cons_iff] at hlt
      rcases hlt with hbelow | ⟨rfl, hlt⟩
      · exact absurd (.inl hbelow) hlow
      · have htail : start <+: low :=
          ih (fun h => hlow (.inr ⟨rfl, h⟩)) hlt (List.prefix_append start rest)
        exact List.cons_prefix_cons.mpr ⟨rfl, htail⟩

theorem takeWhile_eq_filter {α : Type} {p : α → Bool} {l : List α}
    (h : l.Pairwise fun a b => p b = true → p a = true) : l.takeWhile p = l.filter p := by
  induction l with
  | nil => rfl
  | cons a rest ih =>
    obtain ⟨hfirst, hrest⟩ := List.pairwise_cons.mp h
    by_cases ha : p a = true
    · rw [List.takeWhile_cons_of_pos ha, List.filter_cons_of_pos ha, ih hrest]
    · rw [List.takeWhile_cons_of_neg ha, List.filter_cons_of_neg ha]
      symm
      apply List.filter_eq_nil_iff.mpr
      intro b hb hpb
      exact ha (hfirst b hb hpb)

namespace NameIndex

/-- From the place of the beginning on, the names that have it come first. -/
theorem beginningWith_eq (index : NameIndex) (start : Text) : index.beginningWith start =
    (index.names.toList.drop (index.lowerBound start)).filter start.isPrefixOf := by
  apply takeWhile_eq_filter
  have hsorted := index.sorted.sublist (List.drop_sublist (index.lowerBound start) _)
  refine hsorted.imp_of_mem ?_
  intro low high hlow _ hlt hhigh
  rw [List.isPrefixOf_iff_prefix] at hhigh ⊢
  exact prefix_of_between (index.not_lt_of_mem_drop start hlow) hlt hhigh

theorem mem_beginningWith {index : NameIndex} {start name : Text} :
    name ∈ index.beginningWith start ↔ name ∈ index.names ∧ start <+: name := by
  rw [beginningWith_eq, List.mem_filter, List.isPrefixOf_iff_prefix]
  refine and_congr_left fun hstart => ?_
  rw [← Array.mem_toList_iff]
  constructor
  · exact List.mem_of_mem_drop
  · intro hname
    rw [← List.take_append_drop (index.lowerBound start) index.names.toList,
      List.mem_append] at hname
    -- A name in front of the place is below the beginning and cannot have it.
    refine hname.resolve_left fun hfront => ?_
    exact hstart.le (index.lt_of_mem_take start hfront)

theorem beginningWith_sorted (index : NameIndex) (start : Text) :
    (index.beginningWith start).Pairwise (· < ·) :=
  index.sorted.sublist ((List.takeWhile_sublist _).trans (List.drop_sublist _ _))

end NameIndex

namespace Environment

variable {env : Environment}

theorem mem_names_iff {name : Text} : name ∈ env.index.names ↔ env.has name = true :=
  env.indexed name

theorem mem_search_iff {start name : Text} {member : Member} :
    (name, member) ∈ env.search start ↔ start <+: name ∧ env.find? name = some member := by
  simp only [search, List.mem_filterMap, Option.map_eq_some_iff, Prod.mk.injEq]
  constructor
  · rintro ⟨name, hname, member, hmember, rfl, rfl⟩
    exact ⟨(NameIndex.mem_beginningWith.mp hname).2, hmember⟩
  · rintro ⟨hstart, hmember⟩
    have hhas : env.has name = true := by rw [has, hmember]; rfl
    exact ⟨name, NameIndex.mem_beginningWith.mpr ⟨mem_names_iff.mpr hhas, hstart⟩, member, hmember,
      rfl, rfl⟩

theorem search_sorted (env : Environment) (start : Text) :
    (env.search start).Pairwise (·.1 < ·.1) := by
  refine List.Pairwise.filterMap _ ?_ (env.index.beginningWith_sorted start)
  intro low high hlt entry hentry entry' hentry'
  obtain ⟨-, -, rfl⟩ := Option.map_eq_some_iff.mp hentry
  obtain ⟨-, -, rfl⟩ := Option.map_eq_some_iff.mp hentry'
  exact hlt

end Environment

/-! ## Calls that set names -/

/-- A call that gives a name a new member. -/
inductive Assignment where
  | value (name : Text) (value : Decimal)
  | function (name : Text) (function : Function)

namespace Assignment

def name : Assignment → Text
  | .value name _ => name
  | .function name _ => name

def member : Assignment → Member
  | .value _ v => .value v
  | .function _ f => .function f

def perform (env : Environment) : Assignment → Environment
  | .value name v => env.setVariable name v
  | .function name f => env.setFunction name f

theorem perform_eq (env : Environment) (call : Assignment) :
    call.perform env = env.set call.name call.member := by
  cases call <;> rfl

/-- The calls that an environment with the built-in functions starts with. -/
def builtins : List Assignment := Builtin.all.map fun b => function b.name (.builtin b)

/-- The last of the calls that sets the name. -/
def lastFor (name : Text) (calls : List Assignment) : Option Assignment :=
  calls.reverse.find? fun call => call.name = name

theorem lastFor_cons (name : Text) (call : Assignment) (rest : List Assignment) :
    lastFor name (call :: rest) =
      (lastFor name rest).or (if call.name = name then some call else none) := by
  rw [lastFor, List.reverse_cons, List.find?_append, lastFor]
  congr 1
  by_cases h : call.name = name
  · rw [if_pos h, List.find?_cons_of_pos (by simpa using h)]
  · rw [if_neg h, List.find?_cons_of_neg (by simpa using h), List.find?_nil]

theorem name_of_lastFor {name : Text} {calls : List Assignment} {call : Assignment}
    (h : lastFor name calls = some call) : call.name = name := by
  unfold lastFor at h
  simpa using List.find?_some h

end Assignment

namespace Environment

/-- The environment after some calls. -/
def afterAll (env : Environment) (calls : List Assignment) : Environment :=
  calls.foldl Assignment.perform env

theorem find?_afterAll (env : Environment) (calls : List Assignment) (name : Text) :
    (env.afterAll calls).find? name =
      ((Assignment.lastFor name calls).map Assignment.member).or (env.find? name) := by
  induction calls generalizing env with
  | nil => rfl
  | cons call rest ih =>
    have hstep := ih (call.perform env)
    rw [Assignment.perform_eq, find?_set] at hstep
    rw [afterAll, List.foldl_cons, Assignment.perform_eq]
    refine hstep.trans ?_
    rw [Assignment.lastFor_cons, Option.map_or, Option.or_assoc]
    congr 1
    by_cases h : name = call.name
    · rw [if_pos h, if_pos h.symm]
      rfl
    · rw [if_neg h, if_neg (Ne.symm h)]
      rfl

theorem withBuiltins_eq : withBuiltins = empty.afterAll Assignment.builtins := by
  rw [afterAll, Assignment.builtins, List.foldl_map]
  rfl

theorem find?_of_history (history : List Assignment) (name : Text) :
    (empty.afterAll history).find? name =
      (Assignment.lastFor name history).map Assignment.member := by
  rw [find?_afterAll]
  exact Option.or_none

theorem value?_of_history {history : List Assignment} {name : Text} {value : Decimal} :
    (empty.afterAll history).value? name = some value ↔
      Assignment.lastFor name history = some (.value name value) := by
  rw [value?, find?_of_history]
  cases hlast : Assignment.lastFor name history with
  | none => simp
  | some call =>
    have hname := Assignment.name_of_lastFor hlast
    cases call with
    | value _ _ => simp_all [Assignment.member, Assignment.name]
    | function _ _ => simp [Assignment.member]

theorem function?_of_history {history : List Assignment} {name : Text} {function : Function} :
    (empty.afterAll history).function? name = some function ↔
      Assignment.lastFor name history = some (.function name function) := by
  rw [function?, find?_of_history]
  cases hlast : Assignment.lastFor name history with
  | none => simp
  | some call =>
    have hname := Assignment.name_of_lastFor hlast
    cases call with
    | value _ _ => simp [Assignment.member]
    | function _ _ => simp_all [Assignment.member, Assignment.name]

theorem has_of_history {history : List Assignment} {name : Text} :
    (empty.afterAll history).has name = true ↔ ∃ call ∈ history, call.name = name := by
  rw [has, find?_of_history, Option.isSome_map, Assignment.lastFor, List.find?_isSome]
  simp only [List.mem_reverse, decide_eq_true_eq]

theorem size_of_history (history : List Assignment) :
    (empty.afterAll history).size = (history.map Assignment.name).toFinset.card := by
  have hnodup : (empty.afterAll history).index.names.toList.Nodup := by
    refine (empty.afterAll history).index.sorted.imp ?_
    rintro low high hlt rfl
    exact List.lt_irrefl low hlt
  have hsame : (empty.afterAll history).index.names.toList.toFinset =
      (history.map Assignment.name).toFinset := by
    ext name
    rw [List.mem_toFinset, List.mem_toFinset, Array.mem_toList_iff, mem_names_iff, has_of_history,
      List.mem_map]
  rw [← hsame, List.toFinset_card_of_nodup hnodup, size, Array.length_toList]

end Environment

/-- **The environment is a sorted finite map.** After any calls that set names, on an environment
with or without the built-in functions, a variable or a function is found under a name exactly if
the last call for the name has set it. The size is the number of names that were set. A search lists
the names with a given beginning and what they hold, in increasing order. -/
theorem environment_is_sorted_map (builtins : Bool) (calls : List Assignment) :
    let env := (if builtins then Environment.withBuiltins else .empty).afterAll calls
    let history := (if builtins then Assignment.builtins else []) ++ calls
    (∀ name value, env.value? name = some value ↔
      Assignment.lastFor name history = some (.value name value)) ∧
    (∀ name function, env.function? name = some function ↔
      Assignment.lastFor name history = some (.function name function)) ∧
    (∀ name, env.has name = true ↔ ∃ call ∈ history, call.name = name) ∧
    env.size = (history.map Assignment.name).toFinset.card ∧
    ∀ start, (env.search start).Pairwise (·.1 < ·.1) ∧
      ∀ name member, (name, member) ∈ env.search start ↔
        start <+: name ∧ (Assignment.lastFor name history).map Assignment.member = some member := by
  intro env history
  have henv : env = Environment.empty.afterAll history := by
    cases builtins with
    | true =>
      simp only [env, history, if_true, Environment.withBuiltins_eq, Environment.afterAll,
        List.foldl_append]
    | false => rfl
  rw [henv]
  refine ⟨fun name value => Environment.value?_of_history,
    fun name function => Environment.function?_of_history, fun name => Environment.has_of_history,
    Environment.size_of_history history, fun start => ⟨Environment.search_sorted _ start, ?_⟩⟩
  intro name member
  rw [Environment.mem_search_iff, Environment.find?_of_history]

end Reckoner
