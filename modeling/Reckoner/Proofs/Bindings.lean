import Reckoner.Environment

/-!
# Bindings

Setting a name binds that name and no other, and changes nothing if it was bound so before.
-/

namespace Reckoner.Environment

variable {env : Environment} {name other : Text} {member : Member}

theorem find?_set (env : Environment) (name other : Text) (member : Member) :
    (env.set name member).find? other = if other = name then some member else env.find? other :=
  Member.lookup_put name other member env.members

theorem put_of_lookup {entries : List (Text × Member)} (h : entries.lookup name = some member) :
    member.put name entries = entries := by
  induction entries with
  | nil => cases h
  | cons entry rest ih =>
    rw [Member.lookup_cons] at h
    unfold Member.put
    by_cases hsame : name = entry.1
    · rw [if_pos hsame] at h
      rw [if_pos hsame, hsame, ← Option.some.inj h]
    · rw [if_neg hsame] at h
      rw [if_neg hsame, ih h]

/-- A binding changes nothing exactly if it was there. -/
theorem set_eq_self_iff : env.set name member = env ↔ env.find? name = some member := by
  constructor
  · intro h
    rw [← h, find?_set, if_pos rfl]
  · intro h
    have hmembers : member.put name env.members = env.members := put_of_lookup h
    have hhas : env.has name = true := by rw [has, h]; rfl
    unfold set
    simp only [hmembers, hhas, dite_true]

theorem value?_setVariable (env : Environment) (name other : Text) (value : Decimal) :
    (env.setVariable name value).value? other =
      if other = name then some value else env.value? other := by
  unfold value? setVariable
  rw [find?_set]
  by_cases h : other = name
  · simp only [if_pos h]
  · simp only [if_neg h]

end Reckoner.Environment
