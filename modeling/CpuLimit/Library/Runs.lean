import Mathlib.Data.List.Basic
import Mathlib.Tactic.Tauto

/-!
# Runs of input-driven machines

A machine is a step function. A total machine accepts every input; a partial
machine refuses an input that its state does not allow. In both cases the
nondeterminism of the environment is the list of inputs, so a run is a fold and
an explicit run can be evaluated. `Along` states a condition on every step of a
run, which is how a guarantee that needs well-behaved inputs is phrased.
-/
namespace CpuLimit.Library.Runs

variable {σ τ ι κ : Type*}

section Total

variable (step : σ → ι → σ)

/-- The state after a list of inputs, the first input first. -/
def run (s : σ) (inputs : List ι) : σ := inputs.foldl step s

@[simp] theorem run_nil (s : σ) : run step s [] = s := rfl

@[simp] theorem run_cons (s : σ) (i : ι) (inputs : List ι) :
    run step s (i :: inputs) = run step (step s i) inputs := rfl

/-- Every step of the run meets `good`, which sees the state before the step. -/
def Along (good : σ → ι → Prop) : σ → List ι → Prop
  | _, [] => True
  | s, i :: inputs => good s i ∧ Along good (step s i) inputs

variable {step} {good : σ → ι → Prop} {inv : σ → Prop}

@[simp] theorem along_nil (s : σ) : Along step good s [] := trivial

@[simp] theorem along_cons (s : σ) (i : ι) (inputs : List ι) :
    Along step good s (i :: inputs) ↔ good s i ∧ Along step good (step s i) inputs :=
  Iff.rfl

theorem along_and {good' : σ → ι → Prop} {s : σ} {inputs : List ι} :
    Along step (fun s i => good s i ∧ good' s i) s inputs ↔
      Along step good s inputs ∧ Along step good' s inputs := by
  induction inputs generalizing s with
  | nil => simp
  | cons i inputs ih => simp only [along_cons, ih]; tauto

/-- A decidable step condition can be checked along a concrete run. -/
instance instDecidableAlong [∀ s i, Decidable (good s i)] (s : σ) (inputs : List ι) :
    Decidable (Along step good s inputs) :=
  match inputs with
  | [] => inferInstanceAs (Decidable True)
  | i :: inputs =>
    have : Decidable (Along step good (step s i) inputs) :=
      instDecidableAlong (step s i) inputs
    inferInstanceAs (Decidable (_ ∧ _))

/-- A condition on the inputs alone holds along the run from any state. -/
theorem along_of_forall {ok : ι → Prop} {s : σ} {inputs : List ι} (h : ∀ i ∈ inputs, ok i) :
    Along step (fun _ i => ok i) s inputs := by
  induction inputs generalizing s with
  | nil => trivial
  | cons i inputs ih => exact ⟨h i (by simp), ih fun j hj => h j (by simp [hj])⟩

theorem forall_of_along {ok : ι → Prop} {s : σ} {inputs : List ι}
    (h : Along step (fun _ i => ok i) s inputs) : ∀ i ∈ inputs, ok i := by
  induction inputs generalizing s with
  | nil => exact fun i hi => absurd hi List.not_mem_nil
  | cons i inputs ih => exact List.forall_mem_cons.mpr ⟨h.1, ih h.2⟩

/-- What one step preserves under a condition on its input, a run whose steps
all meet the condition preserves. -/
theorem run_invariant (hstep : ∀ s i, inv s → good s i → inv (step s i))
    {s : σ} {inputs : List ι} (hs : inv s) (hgood : Along step good s inputs) :
    inv (run step s inputs) := by
  induction inputs generalizing s with
  | nil => exact hs
  | cons i inputs ih => exact ih (hstep s i hs hgood.1) hgood.2

/-- Two step conditions that agree wherever an invariant holds agree along every run,
if a step that meets them keeps the invariant: they part at the same step. -/
theorem along_congr_of_kept {valid good' : σ → ι → Prop}
    (hstep : ∀ s i, inv s → valid s i → good s i → inv (step s i))
    (hiff : ∀ s i, inv s → valid s i → (good s i ↔ good' s i))
    {s : σ} {inputs : List ι} (hs : inv s) (hvalid : Along step valid s inputs) :
    Along step good s inputs ↔ Along step good' s inputs := by
  induction inputs generalizing s with
  | nil => simp
  | cons i inputs ih =>
    rw [along_cons, along_cons, ← hiff s i hs hvalid.1]
    exact and_congr_right fun hgood => ih (hstep s i hs hvalid.1 hgood) hvalid.2

/-- The same where every valid step keeps the invariant. -/
theorem along_congr_of_invariant {valid good' : σ → ι → Prop}
    (hstep : ∀ s i, inv s → valid s i → inv (step s i))
    (hiff : ∀ s i, inv s → valid s i → (good s i ↔ good' s i))
    {s : σ} {inputs : List ι} (hs : inv s) (hvalid : Along step valid s inputs) :
    Along step good s inputs ↔ Along step good' s inputs :=
  along_congr_of_kept (fun s i h hv _ => hstep s i h hv) hiff hs hvalid

/-- What an invariant and the validity of a step imply of the step holds along every
valid run. -/
theorem along_of_invariant {valid : σ → ι → Prop}
    (hstep : ∀ s i, inv s → valid s i → inv (step s i))
    (hgood : ∀ s i, inv s → valid s i → good s i)
    {s : σ} {inputs : List ι} (hs : inv s) (hvalid : Along step valid s inputs) :
    Along step good s inputs :=
  (along_congr_of_invariant hstep (fun s i h hv => iff_of_true (hgood s i h hv) hv) hs
    hvalid).mpr hvalid

/-- A step refinement lifts to runs, provided the invariant it needs is kept. -/
theorem run_refines {abs : σ → τ} {f : ι → κ} {step' : τ → κ → τ}
    (hstep : ∀ s i, inv s → good s i → inv (step s i))
    (href : ∀ s i, inv s → good s i → abs (step s i) = step' (abs s) (f i))
    {s : σ} {inputs : List ι} (hs : inv s) (hgood : Along step good s inputs) :
    abs (run step s inputs) = run step' (abs s) (inputs.map f) := by
  induction inputs generalizing s with
  | nil => rfl
  | cons i inputs ih =>
    rw [run_cons, ih (hstep s i hs hgood.1) hgood.2, href s i hs hgood.1, List.map_cons, run_cons]

/-- A step condition carries over to the refined run. -/
theorem Along.view {abs : σ → τ} {step' : τ → ι → τ} {good' : τ → ι → Prop}
    (hstep : ∀ s i, inv s → good s i → inv (step s i))
    (href : ∀ s i, inv s → good s i → abs (step s i) = step' (abs s) i ∧ good' (abs s) i)
    {s : σ} {inputs : List ι} (hs : inv s) (hgood : Along step good s inputs) :
    Along step' good' (abs s) inputs := by
  induction inputs generalizing s with
  | nil => trivial
  | cons i inputs ih =>
    obtain ⟨he, hg⟩ := href s i hs hgood.1
    exact ⟨hg, he ▸ ih (hstep s i hs hgood.1) hgood.2⟩

end Total

section Output

variable {ω : Type*} (step : σ → ι → σ × ω)

/-- A machine that answers its inputs, without the answers. -/
def mute (s : σ) (i : ι) : σ := (step s i).1

/-- The answers to a list of inputs. -/
def outputs : σ → List ι → List ω
  | _, [] => []
  | s, i :: inputs => (step s i).2 :: outputs (step s i).1 inputs

variable {step} {step' : τ → ι → τ × ω} {rel : σ → τ → Prop} {good : σ → ι → Prop}

/-- A simulation with equal answers: two machines in related states answer alike. -/
theorem outputs_eq_of_simulation
    (hstep : ∀ s t i, rel s t → good s i →
      rel (step s i).1 (step' t i).1 ∧ (step s i).2 = (step' t i).2)
    {s : σ} {t : τ} {inputs : List ι} (h : rel s t) (hgood : Along (mute step) good s inputs) :
    outputs step s inputs = outputs step' t inputs ∧
      rel (run (mute step) s inputs) (run (mute step') t inputs) := by
  induction inputs generalizing s t with
  | nil => exact ⟨rfl, h⟩
  | cons i inputs ih =>
    obtain ⟨hrel, hanswer⟩ := hstep s t i h hgood.1
    obtain ⟨houtputs, hrun⟩ := ih hrel hgood.2
    exact ⟨by rw [outputs, outputs, hanswer, houtputs], hrun⟩

end Output

section Partial

variable (step : σ → ι → Option σ)

/-- The state after a list of inputs, `none` when some input is refused. -/
def runPartial (s : σ) : List ι → Option σ
  | [] => some s
  | i :: inputs => (step s i).bind fun t => runPartial t inputs

@[simp] theorem runPartial_nil (s : σ) : runPartial step s [] = some s := rfl

theorem runPartial_cons_eq_some {s t : σ} {i : ι} {inputs : List ι} :
    runPartial step s (i :: inputs) = some t ↔
      ∃ m, step s i = some m ∧ runPartial step m inputs = some t := by
  simp [runPartial, Option.bind_eq_some_iff]

theorem runPartial_append_eq_some {s t : σ} {inputs later : List ι} :
    runPartial step s (inputs ++ later) = some t ↔
      ∃ m, runPartial step s inputs = some m ∧ runPartial step m later = some t := by
  induction inputs generalizing s with
  | nil => simp
  | cons i inputs ih =>
    simp only [List.cons_append, runPartial_cons_eq_some, ih]
    constructor
    · rintro ⟨m, hm, k, hk, ht⟩
      exact ⟨k, ⟨m, hm, hk⟩, ht⟩
    · rintro ⟨k, ⟨m, hm, hk⟩, ht⟩
      exact ⟨m, hm, k, hk, ht⟩

/-- `t` is reached from `s` by some accepted inputs. -/
def Reaches (s t : σ) : Prop := ∃ inputs, runPartial step s inputs = some t

/-- Every input is accepted, and every step meets `good`, which sees both of its states. -/
def AlongPartial (good : σ → ι → σ → Prop) : σ → List ι → Prop
  | _, [] => True
  | s, i :: inputs => ∃ t, step s i = some t ∧ good s i t ∧ AlongPartial good t inputs

variable {step} {inv : σ → Prop}

theorem alongPartial_cons_iff {good : σ → ι → σ → Prop} {s t : σ} {i : ι} {inputs : List ι}
    (h : step s i = some t) :
    AlongPartial step good s (i :: inputs) ↔ good s i t ∧ AlongPartial step good t inputs := by
  simp [AlongPartial, h]

theorem Reaches.refl (s : σ) : Reaches step s s := ⟨[], rfl⟩

theorem Reaches.trans {s m t : σ} (h : Reaches step s m) (h' : Reaches step m t) :
    Reaches step s t := by
  obtain ⟨inputs, hi⟩ := h
  obtain ⟨later, hl⟩ := h'
  exact ⟨inputs ++ later, (runPartial_append_eq_some step).mpr ⟨m, hi, hl⟩⟩

theorem Reaches.single {s t : σ} {i : ι} (h : step s i = some t) : Reaches step s t :=
  ⟨[i], by simp [runPartial, h]⟩

theorem runPartial_invariant (hstep : ∀ s i t, inv s → step s i = some t → inv t)
    {s t : σ} {inputs : List ι} (hs : inv s) (hrun : runPartial step s inputs = some t) :
    inv t := by
  induction inputs generalizing s with
  | nil => cases hrun; exact hs
  | cons i inputs ih =>
    obtain ⟨m, hm, ht⟩ := (runPartial_cons_eq_some step).mp hrun
    exact ih (hstep s i m hs hm) ht

/-- The same if only some inputs preserve it, and the run has no others. -/
theorem runPartial_invariant_of_forall {ok : ι → Prop}
    (hstep : ∀ s i t, inv s → ok i → step s i = some t → inv t) {s t : σ} {inputs : List ι}
    (hs : inv s) (hok : ∀ i ∈ inputs, ok i) (hrun : runPartial step s inputs = some t) :
    inv t := by
  induction inputs generalizing s with
  | nil => cases hrun; exact hs
  | cons i inputs ih =>
    obtain ⟨m, hm, ht⟩ := (runPartial_cons_eq_some step).mp hrun
    exact ih (hstep s i m hs (hok i (by simp)) hm) (fun i' hi' => hok i' (by simp [hi'])) ht

/-- What holds initially and is preserved by every accepted step holds in every
reachable state. -/
theorem Reaches.invariant (hstep : ∀ s i t, inv s → step s i = some t → inv t)
    {s t : σ} (h : Reaches step s t) (hs : inv s) : inv t := by
  obtain ⟨inputs, hi⟩ := h
  exact runPartial_invariant hstep hs hi

/-- A decidable step condition can be checked along a concrete run. -/
instance instDecidableAlongPartial {good : σ → ι → σ → Prop} [∀ s i t, Decidable (good s i t)]
    (s : σ) (inputs : List ι) : Decidable (AlongPartial step good s inputs) :=
  match inputs with
  | [] => isTrue trivial
  | i :: inputs =>
    match h : step s i with
    | none => isFalse fun ⟨_, ht, _⟩ => absurd (h.symm.trans ht) (by simp)
    | some t =>
      have : Decidable (AlongPartial step good t inputs) := instDecidableAlongPartial t inputs
      decidable_of_iff _ (alongPartial_cons_iff h).symm

/-- Two step conditions that agree wherever an invariant holds agree along every run,
if a step that meets them keeps the invariant. -/
theorem alongPartial_congr_of_kept {valid good good' : σ → ι → σ → Prop}
    (hstep : ∀ s i t, inv s → step s i = some t → valid s i t → good s i t → inv t)
    (hiff : ∀ s i t, inv s → step s i = some t → valid s i t → (good s i t ↔ good' s i t))
    {s : σ} {inputs : List ι} (hs : inv s) (hvalid : AlongPartial step valid s inputs) :
    AlongPartial step good s inputs ↔ AlongPartial step good' s inputs := by
  induction inputs generalizing s with
  | nil => exact Iff.rfl
  | cons i inputs ih =>
    obtain ⟨t, ht, hv, hrest⟩ := hvalid
    rw [alongPartial_cons_iff ht, alongPartial_cons_iff ht, ← hiff s i t hs ht hv]
    exact and_congr_right fun hgood => ih (hstep s i t hs ht hv hgood) hrest

/-- The same where every valid step keeps the invariant. -/
theorem alongPartial_congr_of_invariant {valid good good' : σ → ι → σ → Prop}
    (hstep : ∀ s i t, inv s → step s i = some t → valid s i t → inv t)
    (hiff : ∀ s i t, inv s → step s i = some t → valid s i t → (good s i t ↔ good' s i t))
    {s : σ} {inputs : List ι} (hs : inv s) (hvalid : AlongPartial step valid s inputs) :
    AlongPartial step good s inputs ↔ AlongPartial step good' s inputs :=
  alongPartial_congr_of_kept (fun s i t h ht hv _ => hstep s i t h ht hv) hiff hs hvalid

/-- What is preserved by every accepted step that meets `good` holds at the end of
a run whose steps all do. -/
theorem AlongPartial.invariant {good : σ → ι → σ → Prop}
    (hstep : ∀ s i t, inv s → step s i = some t → good s i t → inv t) {s : σ} {inputs : List ι}
    (h : AlongPartial step good s inputs) (hs : inv s) :
    ∃ t, runPartial step s inputs = some t ∧ inv t := by
  induction inputs generalizing s with
  | nil => exact ⟨s, rfl, hs⟩
  | cons i inputs ih =>
    obtain ⟨m, hm, hgood, hrest⟩ := h
    obtain ⟨t, ht, hinv⟩ := ih hrest (hstep s i m hs hm hgood)
    exact ⟨t, (runPartial_cons_eq_some step).mpr ⟨m, hm, ht⟩, hinv⟩

/-- `t` is reached from `s` by steps that all meet `good`. -/
def ReachesAlong (step : σ → ι → Option σ) (good : σ → ι → σ → Prop) (s t : σ) : Prop :=
  ∃ inputs, AlongPartial step good s inputs ∧ runPartial step s inputs = some t

namespace ReachesAlong

variable {good : σ → ι → σ → Prop} {s m t : σ} {i : ι}

theorem single (h : step s i = some t) (hgood : good s i t) : ReachesAlong step good s t :=
  ⟨[i], ⟨t, h, hgood, trivial⟩, by simp [runPartial, h]⟩

theorem head (h : step s i = some m) (hgood : good s i m) (hrest : ReachesAlong step good m t) :
    ReachesAlong step good s t := by
  obtain ⟨inputs, halong, hrun⟩ := hrest
  exact ⟨i :: inputs, ⟨m, h, hgood, halong⟩, (runPartial_cons_eq_some step).mpr ⟨m, h, hrun⟩⟩

theorem trans (h : ReachesAlong step good s m) (h' : ReachesAlong step good m t) :
    ReachesAlong step good s t := by
  obtain ⟨inputs, halong, hrun⟩ := h
  induction inputs generalizing s with
  | nil =>
    cases hrun
    exact h'
  | cons i inputs ih =>
    obtain ⟨k, hk, hgood, halong⟩ := halong
    obtain ⟨k', hk', hrun⟩ := (runPartial_cons_eq_some step).mp hrun
    cases hk.symm.trans hk'
    exact head hk hgood (ih halong hrun)

/-- What steps that meet `good` preserve holds wherever only such steps lead. -/
theorem invariant (hstep : ∀ s i t, inv s → step s i = some t → good s i t → inv t)
    (h : ReachesAlong step good s t) (hs : inv s) : inv t := by
  obtain ⟨inputs, halong, hrun⟩ := h
  obtain ⟨t', hrun', hinv⟩ := halong.invariant hstep hs
  cases hrun.symm.trans hrun'
  exact hinv

end ReachesAlong

/-- A run keeps an invariant as long as its steps meet `good`. If the first step that
does not leads into a trap, the end of the run tells which of the two it was. -/
theorem runPartial_dichotomy {good : σ → ι → σ → Prop} {lost : σ → Prop}
    (hinv : ∀ s i t, inv s → step s i = some t → good s i t ∧ inv t ∨ ¬ good s i t ∧ lost t)
    (hlost : ∀ s i t, lost s → step s i = some t → lost t) {s t : σ} {inputs : List ι}
    (hs : inv s) (hrun : runPartial step s inputs = some t) :
    AlongPartial step good s inputs ∧ inv t ∨ ¬ AlongPartial step good s inputs ∧ lost t := by
  induction inputs generalizing s with
  | nil =>
    cases hrun
    exact Or.inl ⟨trivial, hs⟩
  | cons i inputs ih =>
    obtain ⟨m, hm, ht⟩ := (runPartial_cons_eq_some step).mp hrun
    rw [alongPartial_cons_iff hm]
    rcases hinv s i m hs hm with ⟨hgood, hnext⟩ | ⟨hbad, htrap⟩
    · rcases ih hnext ht with ⟨halong, hend⟩ | ⟨halong, hend⟩
      · exact Or.inl ⟨⟨hgood, halong⟩, hend⟩
      · exact Or.inr ⟨fun h => halong h.2, hend⟩
    · exact Or.inr ⟨fun h => hbad h.1, runPartial_invariant hlost htrap ht⟩

end Partial

section Trace

variable {ω : Type*} (step : σ → ι → Option σ) (out : σ → ι → Option ω)

/-- What the steps of a run put out, up to an input that is refused. -/
def trace : σ → List ι → List ω
  | _, [] => []
  | s, i :: inputs =>
    match step s i with
    | none => []
    | some t => (out s i).toList ++ trace t inputs

variable {step out}

/-- An invariant of a state and of what was put out before it. -/
theorem trace_invariant {inv : List ω → σ → Prop}
    (hstep : ∀ past s i t, inv past s → step s i = some t → inv (past ++ (out s i).toList) t)
    {past : List ω} {s t : σ} {inputs : List ι} (hs : inv past s)
    (hrun : runPartial step s inputs = some t) : inv (past ++ trace step out s inputs) t := by
  induction inputs generalizing past s with
  | nil =>
    cases hrun
    rwa [trace, List.append_nil]
  | cons i inputs ih =>
    obtain ⟨m, hm, ht⟩ := (runPartial_cons_eq_some step).mp hrun
    rw [trace, hm, ← List.append_assoc]
    exact ih (hstep past s i m hs hm) ht

theorem forall_mem_trace {p : ω → Prop} (h : ∀ s i o, out s i = some o → p o) {s : σ}
    {inputs : List ι} : ∀ o ∈ trace step out s inputs, p o := by
  induction inputs generalizing s with
  | nil => exact fun o ho => absurd ho List.not_mem_nil
  | cons i inputs ih =>
    intro o ho
    rw [trace] at ho
    cases hm : step s i with
    | none =>
      rw [hm] at ho
      exact absurd ho List.not_mem_nil
    | some m =>
      rw [hm] at ho
      rcases List.mem_append.mp ho with hfirst | hrest
      · exact h s i o (Option.mem_toList.mp hfirst)
      · exact ih o hrest

/-- What is put out drives an abstract machine along with the run. -/
theorem AlongPartial.refines {good : σ → ι → σ → Prop} (abs : σ → τ) {step' : τ → ω → τ}
    {good' : τ → ω → Prop}
    (hstep : ∀ s i t, step s i = some t → good s i t →
      ∃ o, out s i = some o ∧ abs t = step' (abs s) o ∧ good' (abs s) o)
    {s : σ} {inputs : List ι} (h : AlongPartial step good s inputs) :
    ∃ t, runPartial step s inputs = some t ∧
      abs t = run step' (abs s) (trace step out s inputs) ∧
      Along step' good' (abs s) (trace step out s inputs) ∧
      (trace step out s inputs).length = inputs.length := by
  induction inputs generalizing s with
  | nil => exact ⟨s, rfl, rfl, trivial, rfl⟩
  | cons i inputs ih =>
    obtain ⟨m, hm, hgood, hrest⟩ := h
    obtain ⟨o, ho, habs, hgood'⟩ := hstep s i m hm hgood
    obtain ⟨t, ht, hrun, halong, hlength⟩ := ih hrest
    have htrace : trace step out s (i :: inputs) = o :: trace step out m inputs := by
      rw [trace, hm, ho]
      rfl
    refine ⟨t, (runPartial_cons_eq_some step).mpr ⟨m, hm, ht⟩, ?_⟩
    rw [htrace, run_cons, along_cons, ← habs, List.length_cons, List.length_cons, hlength]
    exact ⟨hrun, ⟨hgood', halong⟩, rfl⟩

end Trace

section Measure

variable {step : σ → ι → Option σ} {inv : σ → Prop} {left : σ → ℕ}

/-- If no step raises a measure and the counted ones lower it, there are at most as many of
these in a run. -/
theorem countP_add_measure_le {ok : ι → Prop} {counted : ι → Bool}
    (hstep : ∀ s i t, inv s → ok i → step s i = some t →
      inv t ∧ (counted i).toNat + left t ≤ left s)
    {s t : σ} {inputs : List ι} (hs : inv s) (hok : ∀ i ∈ inputs, ok i)
    (hrun : runPartial step s inputs = some t) : inputs.countP counted + left t ≤ left s := by
  induction inputs generalizing s with
  | nil =>
    cases hrun
    simp
  | cons i inputs ih =>
    obtain ⟨m, hm, ht⟩ := (runPartial_cons_eq_some step).mp hrun
    obtain ⟨hinv, hfirst⟩ := hstep s i m hs (hok i (by simp)) hm
    have hrest := ih hinv (fun j hj => hok j (by simp [hj])) ht
    rw [List.countP_cons]
    cases hc : counted i with
    | false =>
      simp only [hc, Bool.toNat_false, Bool.false_eq_true, if_false] at hfirst ⊢
      omega
    | true =>
      simp only [hc, Bool.toNat_true, if_true] at hfirst ⊢
      omega

/-- If from every state that is not final some step lowers a measure, a final state is
reached by such steps. The induction is over the measure. -/
theorem exists_run_to_final {mine : ι → Prop} {final : σ → Prop}
    (hprogress : ∀ s, inv s → final s ∨ ∃ i t, mine i ∧ step s i = some t ∧ inv t ∧ left t < left s)
    {s : σ} (hs : inv s) :
    ∃ inputs t, (∀ i ∈ inputs, mine i) ∧ runPartial step s inputs = some t ∧ final t := by
  induction hn : left s using Nat.strongRecOn generalizing s with
  | ind n ih =>
    rcases hprogress s hs with hfinal | ⟨i, m, hi, hm, hinv, hlt⟩
    · exact ⟨[], s, by simp, rfl, hfinal⟩
    · obtain ⟨inputs, t, hmine, hrun, hfinal⟩ := ih (left m) (hn ▸ hlt) hinv rfl
      exact ⟨i :: inputs, t, List.forall_mem_cons.mpr ⟨hi, hmine⟩,
        (runPartial_cons_eq_some step).mpr ⟨m, hm, hrun⟩, hfinal⟩

end Measure

end CpuLimit.Library.Runs
