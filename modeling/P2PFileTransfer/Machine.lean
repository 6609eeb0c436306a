/-
**Runs of a machine whose steps may fail.**

A machine is a step function `σ → ev → Except ε σ`: on an event it either moves to a new state or
stops with a fault.  This module has the two rules every run argument uses.  `Machine.run_invariant`
is the plain one: what each step preserves, each run preserves.  `Machine.along_iff` is the exact
one: when a step keeps a property precisely if it meets a guard, then a run visits only states with
the property precisely if each of its steps meets the guard.

Main definitions:

* `Machine.run` — the run of a list of events;
* `Machine.Along` — every step of a run meets a guard at the state it starts from;
* `Machine.Visits` — the states a run passes through, the first and the last included;
* `Machine.Makes` — the steps a run makes;
* `Machine.withHistory` — a machine with a history variable.

Main results:

* `Machine.run_append`, `Machine.run_invariant`, `Machine.run_invariant_along`;
* `Machine.run_total` — a run all of whose steps are possible is possible;
* `Machine.history_invariant` — the invariant rule for a relation between a state and the events
  that led to it;
* `Machine.along_iff`, `Machine.makes_iff_along`, `Machine.along_iff_prefix` — the exact rules, for
  states, for steps, and for a relation between a state and the events that led to it;
* `Machine.exists_run_withHistory`, `Machine.along_withHistory` — a history variable changes no run.
-/

import Mathlib.Data.List.Induction

set_option relaxedAutoImplicit false
set_option autoImplicit false

namespace Machine

variable {σ ev ε : Type*} (step : σ → ev → Except ε σ)

/-- The run of a list of events: it stops at the first fault. -/
def run : σ → List ev → Except ε σ
  | s, [] => .ok s
  | s, e :: es =>
      match step s e with
      | .error x => .error x
      | .ok t => run t es

@[simp] theorem run_nil (s : σ) : run step s [] = .ok s := rfl

theorem run_cons_ok {s t : σ} {e : ev} (h : step s e = .ok t) (es : List ev) :
    run step s (e :: es) = run step t es := by
  simp [run, h]

theorem run_cons_of {s t u : σ} {e : ev} {es : List ev} (h : step s e = .ok t)
    (hrun : run step t es = .ok u) : run step s (e :: es) = .ok u :=
  (run_cons_ok step h es).trans hrun

/-- A run that succeeds starts with a step that succeeds. -/
theorem run_cons_inv {s u : σ} {e : ev} {es : List ev} (h : run step s (e :: es) = .ok u) :
    ∃ t, step s e = .ok t ∧ run step t es = .ok u := by
  cases hs : step s e with
  | error x => simp [run, hs] at h
  | ok t => exact ⟨t, rfl, by simpa [run, hs] using h⟩

theorem run_append {s t : σ} {es : List ev} (h : run step s es = .ok t) (fs : List ev) :
    run step s (es ++ fs) = run step t fs := by
  induction es generalizing s with
  | nil => cases h; rfl
  | cons e es ih =>
      obtain ⟨u, hu, hrest⟩ := run_cons_inv step h
      rw [List.cons_append, run_cons_ok step hu, ih hrest]

/-! ### Invariants -/

variable {step}

/-- **What each step preserves, each run preserves.** -/
theorem run_invariant {P : σ → Prop} (hstep : ∀ s e t, P s → step s e = .ok t → P t)
    {s t : σ} {es : List ev} (hs : P s) (h : run step s es = .ok t) : P t := by
  induction es generalizing s with
  | nil => cases h; exact hs
  | cons e es ih =>
      obtain ⟨u, hu, hrest⟩ := run_cons_inv step h
      exact ih (hstep s e u hs hu) hrest

/-- A run all of whose steps are possible, and keep the invariant that makes them so, is
possible. -/
theorem run_total {P : σ → Prop} {es : List ev}
    (hstep : ∀ s, P s → ∀ e ∈ es, ∃ t, step s e = .ok t ∧ P t) {s : σ} (hs : P s) :
    ∃ t, run step s es = .ok t ∧ P t := by
  induction es generalizing s with
  | nil => exact ⟨s, rfl, hs⟩
  | cons e es ih =>
      obtain ⟨u, hu, hPu⟩ := hstep s hs e (List.mem_cons_self ..)
      obtain ⟨t, ht, hPt⟩ := ih (fun v hv f hf => hstep v hv f (List.mem_cons_of_mem _ hf)) hPu
      exact ⟨t, by rw [run_cons_ok step hu, ht], hPt⟩

/-! ### Guarded runs -/

variable (step)

/-- Every step of the run of `es` from `s` meets the guard `g` at the state it starts from. -/
def Along (g : σ → ev → Prop) : σ → List ev → Prop
  | _, [] => True
  | s, e :: es => g s e ∧ ∀ t, step s e = .ok t → Along g t es

/-- The run of `es` from `s` passes through `t`. -/
def Visits (s : σ) (es : List ev) (t : σ) : Prop := ∃ es₁, es₁ <+: es ∧ run step s es₁ = .ok t

variable {step}

theorem along_cons {g : σ → ev → Prop} {s t : σ} {e : ev} {es : List ev} (hs : step s e = .ok t)
    (hg : g s e) (h : Along step g t es) : Along step g s (e :: es) := by
  refine ⟨hg, fun t' ht' => ?_⟩
  rw [hs] at ht'
  cases ht'
  exact h

/-- Events that meet the guard in every state. -/
theorem along_of_forall {g : σ → ev → Prop} {s : σ} {es : List ev} (h : ∀ e ∈ es, ∀ s, g s e) :
    Along step g s es := by
  induction es generalizing s with
  | nil => trivial
  | cons e es ih =>
      exact ⟨h e (List.mem_cons_self ..) s, fun _ _ =>
        ih fun f hf => h f (List.mem_cons_of_mem _ hf)⟩

/-- One more step, at the end. -/
theorem along_concat {g : σ → ev → Prop} {s t : σ} {e : ev} {es : List ev}
    (hrun : run step s es = .ok t) :
    Along step g s (es ++ [e]) ↔ Along step g s es ∧ g t e := by
  induction es generalizing s with
  | nil =>
      cases hrun
      exact ⟨fun h => ⟨trivial, h.1⟩, fun h => ⟨h.2, fun _ _ => trivial⟩⟩
  | cons f es ih =>
      obtain ⟨u, hu, hrest⟩ := run_cons_inv step hrun
      constructor
      · rintro ⟨hf, hal⟩
        obtain ⟨hbefore, hlast⟩ := (ih hrest).1 (hal u hu)
        exact ⟨along_cons hu hf hbefore, hlast⟩
      · rintro ⟨⟨hf, hal⟩, hlast⟩
        exact along_cons hu hf ((ih hrest).2 ⟨hal u hu, hlast⟩)

/-- One run after another. -/
theorem along_append {g : σ → ev → Prop} {s t : σ} {es fs : List ev} (hrun : run step s es = .ok t)
    (h : Along step g s es) (h' : Along step g t fs) : Along step g s (es ++ fs) := by
  induction es generalizing s with
  | nil =>
      cases hrun
      exact h'
  | cons e es ih =>
      obtain ⟨u, hu, hrest⟩ := run_cons_inv step hrun
      exact along_cons hu h.1 (ih hrest (h.2 u hu))

theorem Along.of_append {g : σ → ev → Prop} {s : σ} {es fs : List ev}
    (h : Along step g s (es ++ fs)) : Along step g s es := by
  induction es generalizing s with
  | nil => trivial
  | cons e es ih => exact ⟨h.1, fun t ht => ih (h.2 t ht)⟩

theorem Visits.start (s : σ) (es : List ev) : Visits step s es s :=
  ⟨[], List.nil_prefix, rfl⟩

theorem Visits.last {s t : σ} {es : List ev} (h : run step s es = .ok t) : Visits step s es t :=
  ⟨es, List.prefix_refl es, h⟩

/-- The states visited by a run are the first one and those visited by the rest. -/
theorem visits_cons {s u t : σ} {e : ev} {es : List ev} (hu : step s e = .ok u) :
    Visits step s (e :: es) t ↔ t = s ∨ Visits step u es t := by
  constructor
  · rintro ⟨es₁, hpre, hrun⟩
    cases es₁ with
    | nil => cases hrun; exact Or.inl rfl
    | cons f fs =>
        obtain ⟨rfl, hfs⟩ := List.cons_prefix_cons.1 hpre
        rw [run_cons_ok step hu] at hrun
        exact Or.inr ⟨fs, hfs, hrun⟩
  · rintro (rfl | ⟨es₁, hpre, hrun⟩)
    · exact Visits.start t (e :: es)
    · exact ⟨e :: es₁, List.cons_prefix_cons.2 ⟨rfl, hpre⟩, by rw [run_cons_ok step hu, hrun]⟩

/-- The invariant rule for guarded runs, at every state the run visits. -/
theorem visits_invariant_along {P : σ → Prop} {g : σ → ev → Prop}
    (hstep : ∀ s e t, P s → g s e → step s e = .ok t → P t) {s t : σ} {es : List ev}
    (hs : P s) (hg : Along step g s es) (h : Visits step s es t) : P t := by
  induction es generalizing s with
  | nil =>
      obtain ⟨es₁, hpre, hrun⟩ := h
      rw [List.prefix_nil.1 hpre] at hrun
      cases hrun
      exact hs
  | cons e es ih =>
      obtain ⟨es₁, hpre, hrun⟩ := h
      cases es₁ with
      | nil => cases hrun; exact hs
      | cons f fs =>
          obtain ⟨rfl, hfs⟩ := List.cons_prefix_cons.1 hpre
          obtain ⟨u, hu, hrest⟩ := run_cons_inv step hrun
          exact ih (hstep _ _ _ hs hg.1 hu) (hg.2 u hu) ⟨fs, hfs, hrest⟩

/-- **The invariant rule for guarded runs.** -/
theorem run_invariant_along {P : σ → Prop} {g : σ → ev → Prop}
    (hstep : ∀ s e t, P s → g s e → step s e = .ok t → P t) {s t : σ} {es : List ev}
    (hs : P s) (hg : Along step g s es) (h : run step s es = .ok t) : P t :=
  visits_invariant_along hstep hs hg (Visits.last h)

/-- **A guarded run is possible** when every step that meets the guard is, and keeps the invariant
that makes it so. -/
theorem run_total_along {P : σ → Prop} {g : σ → ev → Prop}
    (hstep : ∀ s e, P s → g s e → ∃ t, step s e = .ok t ∧ P t) {s : σ} {es : List ev} (hs : P s)
    (hg : Along step g s es) : ∃ t, run step s es = .ok t ∧ P t := by
  induction es generalizing s with
  | nil => exact ⟨s, rfl, hs⟩
  | cons e es ih =>
      obtain ⟨u, hu, hPu⟩ := hstep s e hs hg.1
      obtain ⟨t, ht, hPt⟩ := ih hPu (hg.2 u hu)
      exact ⟨t, by rw [run_cons_ok step hu, ht], hPt⟩

/-- **The exact rule**: when a step from a state with `P` leads to a state with `P` precisely if it
meets the guard, a successful run visits only states with `P` precisely if all its steps meet
the guard. -/
theorem along_iff {P I : σ → Prop} {g : σ → ev → Prop}
    (hI : ∀ s e t, I s → P s → step s e = .ok t → P t → I t)
    (hstep : ∀ s e t, I s → P s → step s e = .ok t → (g s e ↔ P t)) {s u : σ} {es : List ev}
    (hIs : I s) (hs : P s) (h : run step s es = .ok u) :
    Along step g s es ↔ ∀ t, Visits step s es t → P t := by
  induction es generalizing s with
  | nil =>
      refine ⟨fun _ t ht => ?_, fun _ => trivial⟩
      obtain ⟨es₁, hpre, hrun⟩ := ht
      rw [List.prefix_nil.1 hpre] at hrun
      cases hrun
      exact hs
  | cons e es ih =>
      obtain ⟨v, hv, hrest⟩ := run_cons_inv step h
      constructor
      · rintro ⟨hg, hal⟩ t ht
        have hPv : P v := (hstep s e v hIs hs hv).1 hg
        rcases (visits_cons hv).1 ht with rfl | ht'
        · exact hs
        · exact (ih (hI s e v hIs hs hv hPv) hPv hrest).1 (hal v hv) t ht'
      · -- the state after the first step is visited, so that step meets the guard
        intro hall
        have hPv : P v := hall v ((visits_cons hv).2 (Or.inr (Visits.start v es)))
        refine ⟨(hstep s e v hIs hs hv).2 hPv, ?_⟩
        intro w hw
        rw [hv] at hw
        cases hw
        exact (ih (hI s e v hIs hs hv hPv) hPv hrest).2 fun t ht =>
          hall t ((visits_cons hv).2 (Or.inr ht))

/-! ### The steps of a run -/

/-- The run of `es` from `s` makes the step from `t` to `t'` on the event `e`. -/
def Makes (step : σ → ev → Except ε σ) (s : σ) (es : List ev) (t : σ) (e : ev) (t' : σ) : Prop :=
  ∃ es₁ es₂, es = es₁ ++ e :: es₂ ∧ run step s es₁ = .ok t ∧ step t e = .ok t'

/-- The steps a run makes are the first one and those of the rest. -/
theorem makes_cons {s u t t' : σ} {e f : ev} {es : List ev} (hu : step s f = .ok u) :
    Makes step s (f :: es) t e t' ↔ (t = s ∧ e = f ∧ t' = u) ∨ Makes step u es t e t' := by
  constructor
  · rintro ⟨es₁, es₂, hsplit, hrun, hstep⟩
    cases es₁ with
    | nil =>
        cases hsplit
        cases hrun
        rw [hu] at hstep
        cases hstep
        exact Or.inl ⟨rfl, rfl, rfl⟩
    | cons f' es₁ =>
        obtain ⟨rfl, hrest⟩ := List.cons.inj (hsplit.trans (List.cons_append ..))
        rw [run_cons_ok step hu] at hrun
        exact Or.inr ⟨es₁, es₂, hrest, hrun, hstep⟩
  · rintro (⟨rfl, rfl, rfl⟩ | ⟨es₁, es₂, rfl, hrun, hstep⟩)
    · exact ⟨[], es, rfl, rfl, hu⟩
    · exact ⟨f :: es₁, es₂, rfl, by rw [run_cons_ok step hu, hrun], hstep⟩

/-- **The exact rule for steps**: when a step has the property `R` precisely if it meets the guard,
all steps of a successful run have it precisely if all meet the guard. -/
theorem makes_iff_along {R : σ → ev → σ → Prop} {g : σ → ev → Prop}
    (hstep : ∀ s e t, step s e = .ok t → (R s e t ↔ g s e)) {s u : σ} {es : List ev}
    (h : run step s es = .ok u) :
    (∀ t e t', Makes step s es t e t' → R t e t') ↔ Along step g s es := by
  induction es generalizing s with
  | nil =>
      refine ⟨fun _ => trivial, fun _ t e t' hm => ?_⟩
      obtain ⟨es₁, es₂, hsplit, -⟩ := hm
      exact absurd hsplit (by simp)
  | cons e es ih =>
      obtain ⟨v, hv, hrest⟩ := run_cons_inv step h
      constructor
      · intro hall
        refine along_cons hv ((hstep s e v hv).1 (hall s e v ((makes_cons hv).2 (Or.inl
          ⟨rfl, rfl, rfl⟩)))) ((ih hrest).1 fun t f t' hm => ?_)
        exact hall t f t' ((makes_cons hv).2 (Or.inr hm))
      · rintro ⟨hg, hal⟩ t f t' hm
        rcases (makes_cons hv).1 hm with ⟨rfl, rfl, rfl⟩ | hm
        · exact (hstep t f t' hv).2 hg
        · exact (ih hrest).2 (hal v hv) t f t' hm

/-! ### Runs and their past -/

/-- **The invariant rule with the past**: what relates the first state to no event, and is kept by
each step that adds an event, relates every state to the events that led to it. -/
theorem history_invariant {P : List ev → σ → Prop} {s : σ} (hs : P [] s)
    (hstep : ∀ es t e u, run step s es = .ok t → P es t → step t e = .ok u → P (es ++ [e]) u)
    {es : List ev} {t : σ} (h : run step s es = .ok t) : P es t := by
  have hpre : ∀ (es pre : List ev) (u : σ), run step s pre = .ok u → P pre u →
      run step u es = .ok t → P (pre ++ es) t := by
    intro es
    induction es with
    | nil =>
        intro pre u _ hu hend
        cases hend
        rwa [List.append_nil]
    | cons e es ih =>
        intro pre u hrun hu hend
        obtain ⟨v, hv, hrest⟩ := run_cons_inv step hend
        have hnext := ih (pre ++ [e]) v (by rw [run_append step hrun, run_cons_ok step hv, run_nil])
          (hstep pre u e v hrun hu hv) hrest
        rwa [List.append_assoc] at hnext
  exact hpre es [] s rfl hs h

/-- **The exact rule with the past**: when a step from a state with `P` is possible and leads to one
with `P` precisely if it meets the guard, every beginning of a run is possible and leads to a state
with `P` precisely if all steps meet the guard.  `I` is what such steps keep, and `v` is what every
event may be taken to meet. -/
theorem along_iff_prefix {I P : List ev → σ → Prop} {v g : σ → ev → Prop} {s : σ} {es : List ev}
    (hI₀ : I [] s) (hP₀ : P [] s)
    (hstep : ∀ pre t e, pre ++ [e] <+: es → I pre t → P pre t → v t e →
      ((∃ u, step t e = .ok u ∧ P (pre ++ [e]) u) ↔ g t e))
    (hI : ∀ pre t e u, pre ++ [e] <+: es → I pre t → P pre t → v t e → step t e = .ok u →
      P (pre ++ [e]) u → I (pre ++ [e]) u)
    (hv : Along step v s es) :
    (∀ pre, pre <+: es → ∃ t, run step s pre = .ok t ∧ P pre t) ↔ Along step g s es := by
  suffices hboth : ((∀ pre, pre <+: es → ∃ t, run step s pre = .ok t ∧ P pre t) ↔
      Along step g s es) ∧ (Along step g s es → ∃ t, run step s es = .ok t ∧ I es t ∧ P es t) from
    hboth.1
  induction es using List.reverseRecOn with
  | nil =>
      refine ⟨⟨fun _ => trivial, fun _ pre hpre => ?_⟩, fun _ => ⟨s, rfl, hI₀, hP₀⟩⟩
      rw [List.prefix_nil.1 hpre]
      exact ⟨s, rfl, hP₀⟩
  | append_singleton es e ih =>
      obtain ⟨hiff, hlast⟩ := ih
        (fun pre t f hpre => hstep pre t f (hpre.trans (List.prefix_append ..)))
        (fun pre t f u hpre => hI pre t f u (hpre.trans (List.prefix_append ..))) hv.of_append
      -- the state before the last step, when the steps before it meet the guard
      have hnext : Along step g s es → ∃ t, run step s es = .ok t ∧ I es t ∧ P es t ∧ v t e ∧
          run step s (es ++ [e]) = run step t [e] := fun hal => by
        obtain ⟨t, hrun, hIt, hPt⟩ := hlast hal
        exact ⟨t, hrun, hIt, hPt, ((along_concat hrun).1 hv).2, run_append step hrun [e]⟩
      constructor
      · constructor
        · intro hall
          have hal := hiff.1 fun pre hpre => hall pre (hpre.trans (List.prefix_append ..))
          obtain ⟨t, hrun, hIt, hPt, hvt, hend⟩ := hnext hal
          obtain ⟨u, hu, hPu⟩ := hall _ (List.prefix_refl _)
          rw [hend] at hu
          obtain ⟨w, hw, hrest⟩ := run_cons_inv step hu
          cases hrest
          exact (along_concat hrun).2
            ⟨hal, (hstep es t e (List.prefix_refl _) hIt hPt hvt).1 ⟨_, hw, hPu⟩⟩
        · intro hal pre hpre
          rcases List.prefix_concat_iff.1 hpre with rfl | hpre
          · obtain ⟨t, hrun, hIt, hPt, hvt, hend⟩ := hnext hal.of_append
            obtain ⟨u, hu, hPu⟩ := (hstep es t e (List.prefix_refl _) hIt hPt hvt).2
              ((along_concat hrun).1 hal).2
            exact ⟨u, by rw [hend, run_cons_ok step hu, run_nil], hPu⟩
          · exact hiff.2 hal.of_append pre hpre
      · intro hal
        obtain ⟨t, hrun, hIt, hPt, hvt, hend⟩ := hnext hal.of_append
        obtain ⟨u, hu, hPu⟩ := (hstep es t e (List.prefix_refl _) hIt hPt hvt).2
          ((along_concat hrun).1 hal).2
        exact ⟨u, by rw [hend, run_cons_ok step hu, run_nil],
          hI es t e u (List.prefix_refl _) hIt hPt hvt hu hPu, hPu⟩

/-! ### History variables -/

section History

variable {γ : Type*} (step) (update : σ → ev → σ → γ → γ)

/-- The machine with a value beside its state that every step updates and no step reads. -/
def withHistory (sg : σ × γ) (e : ev) : Except ε (σ × γ) :=
  match step sg.1 e with
  | .error x => .error x
  | .ok t => .ok (t, update sg.1 e t sg.2)

variable {step update}

theorem withHistory_ok {s t : σ} {g g' : γ} {e : ev}
    (h : withHistory step update (s, g) e = .ok (t, g')) :
    step s e = .ok t ∧ g' = update s e t g := by
  rw [withHistory] at h
  dsimp only at h
  cases hs : step s e with
  | error x => rw [hs] at h; cases h
  | ok u => rw [hs] at h; cases h; exact ⟨rfl, rfl⟩

/-- **The value beside the state changes no run**: every run of the machine is one with it. -/
theorem exists_run_withHistory {s t : σ} {es : List ev} (h : run step s es = .ok t) (g : γ) :
    ∃ g', run (withHistory step update) (s, g) es = .ok (t, g') := by
  induction es generalizing s g with
  | nil =>
      cases h
      exact ⟨g, rfl⟩
  | cons e es ih =>
      obtain ⟨u, hu, hrest⟩ := run_cons_inv step h
      obtain ⟨g', hg'⟩ := ih hrest (update s e u g)
      refine ⟨g', ?_⟩
      rw [run_cons_ok (t := (u, update s e u g)) _ (by rw [withHistory, hu]), hg']

/-- **A guard that does not read the value** is met by the one run if it is met by the other. -/
theorem along_withHistory {p : σ → ev → Prop} {s : σ} {es : List ev} (h : Along step p s es)
    (g : γ) : Along (withHistory step update) (fun sg e => p sg.1 e) (s, g) es := by
  induction es generalizing s g with
  | nil => trivial
  | cons e es ih =>
      refine ⟨h.1, fun sg hsg => ?_⟩
      obtain ⟨hs, -⟩ := withHistory_ok hsg
      exact ih (h.2 sg.1 hs) sg.2

end History

end Machine
