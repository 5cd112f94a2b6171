import Reckoner.Builtin
import Reckoner.Expr
import Reckoner.NameIndex

/-!
The names a session knows. Variables and functions share one name space: setting a name replaces
what it held before, of whatever kind. Members are kept in the order in which their names were first
set, and the names also by code unit, for searching.
-/

namespace Reckoner

inductive Function where
  | builtin (function : Builtin)
  | user (params : List Text) (body : Expr)

inductive Member where
  | value (value : Decimal)
  | function (function : Function)

namespace Member

theorem lookup_cons (entry : Text × Member) (rest : List (Text × Member)) (name : Text) :
    (entry :: rest).lookup name = if name = entry.1 then some entry.2 else rest.lookup name := by
  rw [List.lookup_cons]
  by_cases h : name = entry.1
  · rw [beq_iff_eq.mpr h, if_pos h]
  · rw [beq_false_of_ne h, if_neg h]

/-- Puts the member in the place of what its name held before, or behind all others. -/
def put (name : Text) (member : Member) : List (Text × Member) → List (Text × Member)
  | [] => [(name, member)]
  | entry :: rest =>
    if name = entry.1 then (name, member) :: rest else entry :: put name member rest

theorem lookup_put (name other : Text) (member : Member) (entries : List (Text × Member)) :
    (put name member entries).lookup other =
      if other = name then some member else entries.lookup other := by
  induction entries with
  | nil => exact lookup_cons (name, member) [] other
  | cons entry rest ih =>
    unfold put
    by_cases hsame : name = entry.1
    · rw [if_pos hsame, lookup_cons, lookup_cons]
      by_cases h : other = name
      · rw [if_pos h, if_pos h]
      · rw [if_neg h, if_neg h, if_neg (hsame ▸ h)]
    · rw [if_neg hsame, lookup_cons, lookup_cons, ih]
      by_cases h : other = name
      · rw [if_pos h, if_pos h, if_neg (h ▸ hsame)]
      · rw [if_neg h, if_neg h]

end Member

structure Environment where
  members : List (Text × Member)
  index : NameIndex
  /-- The index has just the names that members are kept under. -/
  indexed : ∀ name, name ∈ index.names ↔ (members.lookup name).isSome = true

namespace Environment

def empty : Environment := ⟨[], .empty, by simp [NameIndex.empty]⟩

def size (env : Environment) : Nat := env.index.names.size

def find? (env : Environment) (name : Text) : Option Member := env.members.lookup name

def has (env : Environment) (name : Text) : Bool := (env.find? name).isSome

/-- Only a name that was not set before is new to the index. -/
def set (env : Environment) (name : Text) (member : Member) : Environment where
  members := member.put name env.members
  index :=
    if h : env.has name then env.index
    else env.index.insert name fun old => h ((env.indexed name).mp old)
  indexed other := by
    rw [Member.lookup_put]
    by_cases hname : other = name
    · rw [if_pos hname]
      subst hname
      refine iff_of_true ?_ rfl
      split
      · rename_i hold
        exact (env.indexed other).mpr hold
      · exact (env.index.mem_insert _).mpr (.inl rfl)
    · rw [if_neg hname, ← env.indexed other]
      split
      · exact Iff.rfl
      · exact (env.index.mem_insert _).trans (or_iff_right hname)

def setVariable (env : Environment) (name : Text) (value : Decimal) : Environment :=
  env.set name (.value value)

def setFunction (env : Environment) (name : Text) (function : Function) : Environment :=
  env.set name (.function function)

def withBuiltins : Environment :=
  Builtin.all.foldl (fun env b => env.setFunction b.name (.builtin b)) empty

def value? (env : Environment) (name : Text) : Option Decimal :=
  match env.find? name with
  | some (.value value) => some value
  | _ => none

def function? (env : Environment) (name : Text) : Option Function :=
  match env.find? name with
  | some (.function function) => some function
  | _ => none

/-- The entries whose name begins with `start`, in order. -/
def search (env : Environment) (start : Text) : List (Text × Member) :=
  (env.index.beginningWith start).filterMap fun name =>
    (env.find? name).map fun member => (name, member)

end Environment
end Reckoner
