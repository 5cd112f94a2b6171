import Reckoner.Proofs.Sessions.Probe

/-!
# What a failed commit leaves behind

A commit that fails has kept the last result and the settings. Two things may still be left of it.
An assignment whose value cannot be shown has been stored, and a sine that was refused has changed
the context, for every session. Without either of them nothing is left, and with either of them
something is, that is seen in the environment or in a later answer (`failed_commit_atomic_iff`).
Whether a refused sine has changed the context is asked of the context itself, not of the digits
that were to be added to it.
-/

namespace Reckoner

namespace Desk

/-- The first session, with nothing done yet. -/
def fresh (given : Text → Option Text) : Desk := .start (.load given) .initial

/-- The states that sessions get to. Other sessions may have been at work on what is shared. -/
inductive Reachable : Desk → Prop where
  | first (given : Text → Option Text) : Reachable (.fresh given)
  | another (given : Text → Option Text) {d : Desk} (before : Reachable d) :
      Reachable (.start (.load given) d.shared)
  | handled {d : Desk} (before : Reachable d) (request : Request) : Reachable (d.handle request).2
  | beside {d d' : Desk} (before : Reachable d) (other : Reachable d') :
      Reachable ⟨d.session, d'.shared⟩

theorem start_context (settings : Settings) (shared : Shared) :
    (start settings shared).shared.context = shared.context := by
  simp only [start, Session.start]
  split <;> rfl

end Desk

namespace Desk.Reachable

variable {d : Desk}

/-- There are two kinds of contexts: the one at the start, and those that a refused sine leaves. -/
theorem standard_or_spoiled (h : d.Reachable) :
    d.shared.context = .standard ∨ d.shared.context.Spoiled := by
  induction h with
  | first => exact .inl (start_context _ _)
  | another _ _ ih => rw [start_context]; exact ih
  | @handled d _ request ih =>
    rw [Desk.handle_context]
    exact (d.session.result_leaves _ _).standard_or_spoiled ih
  | beside _ _ _ ih => exact ih

theorem precision_pos (h : d.Reachable) : 0 < d.shared.context.precision := by
  rcases h.standard_or_spoiled with standard | spoiled
  · rw [standard]
    decide
  · exact Nat.zero_lt_of_lt spoiled.precision

end Desk.Reachable

/-! ## What is stored -/

namespace Session

variable {s : Session} {text : Text} {ctx : Context}

/-- The text is an assignment, and the value it assigns was found. -/
def Binds (s : Session) (text : Text) (ctx : Context) (name : Text) (member : Member) : Prop :=
  ∃ stmt value, (s.outcome text ctx).1 = .ok (stmt, value) ∧
    stmt.binding? value = some (name, member)

theorem kept_eq_self_iff : s.kept text ctx = s.env ↔
    ∀ name member, s.Binds text ctx name member → s.env.find? name = some member := by
  unfold kept
  cases houtcome : (s.outcome text ctx).1 with
  | error failure =>
    refine iff_of_true rfl ?_
    rintro name member ⟨stmt, value, h, -⟩
    rw [houtcome] at h
    cases h
  | ok outcome =>
    obtain ⟨stmt, value⟩ := outcome
    cases hbinding : stmt.binding? value with
    | none =>
      simp only [hbinding]
      refine iff_of_true rfl ?_
      rintro name member ⟨stmt', value', h, hbinding'⟩
      rw [houtcome] at h
      cases h
      rw [hbinding] at hbinding'
      cases hbinding'
    | some bound =>
      obtain ⟨name, member⟩ := bound
      simp only [hbinding]
      refine Environment.set_eq_self_iff.trans
        ⟨?_, fun h => h name member ⟨_, _, houtcome, hbinding⟩⟩
      rintro h name' member' ⟨stmt', value', h', hbinding'⟩
      rw [houtcome] at h'
      cases h'
      rw [hbinding] at hbinding'
      cases hbinding'
      exact h

theorem displayPrecision_natCast (n : Nat) : displayPrecision n = max 1 n := by
  simp only [displayPrecision, Rat.num_natCast, Rat.den_natCast, Int.cast_ofNat_Int, Int.tdiv_one]
  omega

/-- With no more digits than can be asked for, every value can be shown. -/
theorem format_ok (h : s.settings.displayDigits ≤ maxDisplayPlaces + 1) (value : Decimal) :
    ∃ output, s.format value = .ok output := by
  have hplaces : ¬ maxDisplayPlaces < displayPrecision s.settings.displayDigits - 1 := by
    rw [displayPrecision_natCast]
    have hlimit : 0 < maxDisplayPlaces := by decide
    omega
  unfold format
  cases value with
  | nan => exact ⟨_, rfl⟩
  | infinite negative => exact ⟨_, rfl⟩
  | finite negative m =>
    simp only [Decimal.display, if_neg hplaces]
    split <;> exact ⟨_, rfl⟩

theorem not_binds_of_error {failure : Failure}
    (h : s.settings.displayDigits ≤ maxDisplayPlaces + 1)
    (herror : s.result text ctx = .error failure) (name : Text) (member : Member) :
    ¬ s.Binds text ctx name member := by
  rintro ⟨stmt, value, houtcome, -⟩
  obtain ⟨output, hformat⟩ := format_ok h value
  rw [result, houtcome] at herror
  simp only [Except.bind, hformat] at herror
  cases herror

end Session

/-! ## What is left of a failure -/

namespace Desk

variable {d : Desk} {text : Text} {refusal : Refusal}

/-- Nothing is left of the commit: the environment and the last result are as before, and every
later commit returns what it would have returned without it. -/
structure Untouched (d : Desk) (text : Text) : Prop where
  env : (d.handle (.commit text)).2.session.env = d.session.env
  last : (d.handle (.commit text)).2.session.last = d.session.last
  later : ∀ texts : List Text,
    (d.handle (.commit text)).2.trace (texts.map .commit) = d.trace (texts.map .commit)

theorem commit_error (h : (d.session.commit text d.shared).1 = .error refusal) :
    ∃ failure, d.session.result text d.shared.context = .error failure ∧
      refusal = .ofFailure failure ∧ (d.handle (.commit text)).2.session =
        { d.session with env := d.session.kept text d.shared.context } := by
  obtain ⟨hresult, hsession, -⟩ := d.session.commit_eq text d.shared
  cases hr : d.session.result text d.shared.context with
  | ok answer => rw [hr] at hresult; rw [hresult] at h; cases h
  | error failure =>
    rw [hr] at hresult
    rw [hresult] at h
    cases h
    refine ⟨failure, rfl, rfl, ?_⟩
    rw [(d.handle_commit text).2.1, Session.committed, hr]

theorem untouched_of_context (h : (d.session.commit text d.shared).1 = .error refusal)
    (henv : d.session.kept text d.shared.context = d.session.env)
    (hcontext : (d.handle (.commit text)).2.shared.context = d.shared.context) :
    d.Untouched text := by
  obtain ⟨failure, -, -, hsession⟩ := commit_error h
  rw [henv] at hsession
  have hagrees : (d.handle (.commit text)).2.Agrees d := ⟨hsession, hcontext⟩
  exact ⟨by rw [hsession], by rw [hsession], fun texts => (hagrees.trace (texts.map .commit)).1⟩

/-- Another context is seen in later answers. -/
theorem not_untouched_of_context (hd : d.Reachable)
    (hcontext : (d.handle (.commit text)).2.shared.context ≠ d.shared.context) :
    ¬ d.Untouched text := by
  intro huntouched
  have hleaves := d.session.result_leaves text d.shared.context
  rw [← (d.handle_commit text).2.2] at hleaves
  have hlt := hleaves.precision_lt_of_ne hd.standard_or_spoiled hcontext
  obtain ⟨texts, hdiffers⟩ := probe_differs hd.precision_pos hlt
  exact hdiffers (huntouched.later texts)

theorem context_of_not_forPrecision (h : (d.session.commit text d.shared).1 = .error refusal)
    (hrefusal : ¬ refusal.forPrecision) :
    (d.handle (.commit text)).2.shared.context = d.shared.context := by
  obtain ⟨failure, hresult, rfl, -⟩ := commit_error h
  rw [(d.handle_commit text).2.2]
  refine (d.session.result_leaves text d.shared.context).eq_of_ne fun pos heq => hrefusal ?_
  exact Refusal.forPrecision_iff.mpr ⟨pos, Except.error.inj (hresult.symm.trans heq)⟩

theorem context_of_forPrecision (h : (d.session.commit text d.shared).1 = .error refusal)
    (hrefusal : refusal.forPrecision) :
    d.shared.context.Refused (d.handle (.commit text)).2.shared.context := by
  obtain ⟨failure, hresult, rfl, -⟩ := commit_error h
  obtain ⟨pos, rfl⟩ := Refusal.forPrecision_iff.mp hrefusal
  rw [(d.handle_commit text).2.2]
  exact (d.session.result_leaves text d.shared.context).refused_of_eq hresult

/-- The first refusal for the precision leaves another context than it found. -/
theorem context_ne_of_forPrecision (h : (d.session.commit text d.shared).1 = .error refusal)
    (hrefusal : refusal.forPrecision) (hcontext : d.shared.context = .standard) :
    (d.handle (.commit text)).2.shared.context ≠ d.shared.context := by
  intro same
  have raised := (context_of_forPrecision h hrefusal).precision_lt_of_standard hcontext
  rw [same] at raised
  exact Nat.lt_irrefl _ raised

end Desk

/-- The code of a refusal, if there is one. -/
def Refusal.code? : Except Refusal Answer → Option Text
  | .ok _ => none
  | .error refusal => some refusal.code

theorem Refusal.of_code? {result : Except Refusal Answer} {code : Text}
    (h : code? result = some code) : ∃ refusal, result = .error refusal ∧ refusal.code = code := by
  cases result with
  | ok answer => cases h
  | error refusal => exact ⟨refusal, rfl, Option.some.inj h⟩

/-- **A failed commit leaves nothing behind, two cases apart.** In every state that sessions get to,
and whatever the settings, a commit that fails leaves the last result as it was. It leaves
everything as it was, later answers included, exactly if it leaves the context that it found and did
not store an assignment that was not there before. Only a refusal for the precision leaves another
context, and it does so if no such refusal came before it. An assignment can be stored only if more
digits are to be shown than the display can be asked for. -/
theorem failed_commit_atomic_iff {d : Desk} {text : Text} {refusal : Refusal} (hd : d.Reachable)
    (h : (d.session.commit text d.shared).1 = .error refusal) :
    let next := (d.handle (.commit text)).2
    next.session.last = d.session.last ∧
    (d.Untouched text ↔ next.shared.context = d.shared.context ∧
      ∀ name member, d.session.Binds text d.shared.context name member →
        d.session.env.find? name = some member) ∧
    (refusal.code ≠ ("PRECISION_LIMIT" : Text) → next.shared.context = d.shared.context) ∧
    (refusal.code = ("PRECISION_LIMIT" : Text) → d.shared.context = ⟨78, .halfEven⟩ →
      next.shared.context ≠ d.shared.context) ∧
    (d.session.settings.displayDigits ≤ maxDisplayPlaces + 1 →
      ∀ name member, ¬ d.session.Binds text d.shared.context name member) := by
  intro next
  obtain ⟨failure, hresult, -, hsession⟩ := Desk.commit_error h
  have hlast : next.session.last = d.session.last := by rw [hsession]
  refine ⟨hlast, ⟨fun huntouched => ⟨?_, ?_⟩, fun hleft => ?_⟩,
    Desk.context_of_not_forPrecision h, Desk.context_ne_of_forPrecision h,
    fun hdigits => Session.not_binds_of_error hdigits hresult⟩
  · by_cases hcontext : next.shared.context = d.shared.context
    · exact hcontext
    · exact absurd huntouched (Desk.not_untouched_of_context hd hcontext)
  · have henv := huntouched.env
    rw [hsession] at henv
    exact Session.kept_eq_self_iff.mp henv
  · obtain ⟨hcontext, hbinds⟩ := hleft
    exact Desk.untouched_of_context h (Session.kept_eq_self_iff.mpr hbinds) hcontext

/-- An assignment whose value is not found leaves nothing behind. -/
theorem failed_commit_atomic_undeclared :
    (∃ refusal, ((Desk.fresh fun _ => none).session.commit "x=sum(1,y)"
      (Desk.fresh fun _ => none).shared).1 = .error refusal) ∧
    (Desk.fresh fun _ => none).Untouched "x=sum(1,y)" := by
  have hcode : Refusal.code? ((Desk.fresh fun _ => none).session.commit "x=sum(1,y)"
      (Desk.fresh fun _ => none).shared).1 = some "UNDECLARED_VARIABLE" := by decide +kernel
  have hdigits : (Desk.fresh fun _ => none).session.settings.displayDigits ≤
      maxDisplayPlaces + 1 := by decide +kernel
  obtain ⟨refusal, hrefused, hrefusal⟩ := Refusal.of_code? hcode
  obtain ⟨-, hiff, hcontext, -, hshown⟩ := failed_commit_atomic_iff (.first fun _ => none) hrefused
  refine ⟨⟨refusal, hrefused⟩, hiff.mpr ⟨hcontext ?_, fun name member hbinds => ?_⟩⟩
  · rw [hrefusal]
    decide
  · exact absurd hbinds (hshown hdigits name member)

/-- Settings that ask for more digits than can be shown. -/
def Settings.tooManyDigits (name : Text) : Option Text :=
  if name = Settings.digitsName then some "2000000000" else none

/-- Something may be left of a failed commit: an assignment that could not be shown, or what a
refused sine did to the context. -/
theorem failed_commit_leaves_traces :
    (∃ refusal, ((Desk.fresh Settings.tooManyDigits).session.commit "x=1"
        (Desk.fresh Settings.tooManyDigits).shared).1 = .error refusal ∧
      ¬ (Desk.fresh Settings.tooManyDigits).Untouched "x=1") ∧
    ∃ refusal, ((Desk.fresh fun _ => none).session.commit "sin(10^941)"
        (Desk.fresh fun _ => none).shared).1 = .error refusal ∧
      ¬ (Desk.fresh fun _ => none).Untouched "sin(10^941)" := by
  constructor
  · have hcode : Refusal.code? ((Desk.fresh Settings.tooManyDigits).session.commit "x=1"
        (Desk.fresh Settings.tooManyDigits).shared).1 = some "INTERNAL" := by decide +kernel
    have hstored : ((Desk.fresh Settings.tooManyDigits).handle
        (.commit "x=1")).2.session.env.has "x" ≠
        (Desk.fresh Settings.tooManyDigits).session.env.has "x" := by decide +kernel
    obtain ⟨refusal, hrefused, -⟩ := Refusal.of_code? hcode
    exact ⟨refusal, hrefused, fun huntouched => hstored (by rw [huntouched.env])⟩
  · have hcode : Refusal.code? ((Desk.fresh fun _ => none).session.commit "sin(10^941)"
        (Desk.fresh fun _ => none).shared).1 = some "PRECISION_LIMIT" := by decide +kernel
    obtain ⟨refusal, hrefused, hrefusal⟩ := Refusal.of_code? hcode
    refine ⟨refusal, hrefused, Desk.not_untouched_of_context (.first fun _ => none) ?_⟩
    exact Desk.context_ne_of_forPrecision hrefused hrefusal rfl

end Reckoner
