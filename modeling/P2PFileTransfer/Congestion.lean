/-
**The congestion window over the life of a transfer** (`congestion.c`, `mytime.c`).

A transfer made at the reading `t₀` of the clock is handed to `congestion_control` on every new
acknowledgement and to `detected_first_loss` on every loss.  In slow start the window is a power
of two and stays below twice the threshold, which either is the first one or was half of an earlier
window; in congestion avoidance it is the window the mode was entered with plus one piece for each
round trip since.  `P2P.InLaw` says both with the time, and carries the bound `64 + e / 200`, where
`e` is the time since creation, over every switch of the mode.

Main definitions:

* `P2P.millitime` and `P2P.IsReading` — the clock and its values;
* `P2P.CongestCall`, `P2P.runCalls` — a call of the two functions, and a sequence of them;
* `P2P.Paced` — the readings of a sequence of calls never go back;
* `P2P.CongestCall.NoWrap` — no unsigned computation of a call wraps;
* `P2P.InLaw` — the invariant.

Main results:

* `P2P.inLaw_apply` — a call keeps the invariant;
* `P2P.congestion_window_law` — **the window law**.
-/

import P2PFileTransfer.Transfer
import Mathlib.Tactic.Linarith
import Mathlib.Tactic.NormNum

set_option relaxedAutoImplicit false
set_option autoImplicit false

namespace P2P

/-! ### The clock -/

/-- `millitime`, with the two fields `gettimeofday` fills in. -/
def millitime (sec usec : ℕ) : ℕ := usec / 1000 + (sec &&& 0xfffff) * 1000

/-- The values of `millitime`: the microseconds of a time of day are below one second. -/
def IsReading (now : ℕ) : Prop := ∃ sec usec, usec < 1000000 ∧ now = millitime sec usec

theorem IsReading.lt {now : ℕ} (h : IsReading now) : now < 2 ^ 30 := by
  obtain ⟨sec, usec, husec, rfl⟩ := h
  have hsec : sec &&& 0xfffff = sec % 2 ^ 20 := Nat.and_two_pow_sub_one_eq_mod sec 20
  rw [millitime, hsec]
  omega

/-! ### Sequences of calls -/

/-- What the server noticed: a new acknowledgement or a loss. -/
inductive CongestEvent where
  | ack
  | loss
  deriving DecidableEq

/-- A call of `congestion_control` or of `detected_first_loss`, with the readings it may make: two
of its own and, at index 2, that of `graph_wind_size`. -/
structure CongestCall where
  event : CongestEvent
  clock : ℕ → ℕ

/-- What the call makes of the transfer. -/
def CongestCall.apply (k : CongestCall) (t : Transfer) : Transfer :=
  match k.event with
  | .ack => congestionControl k.clock t
  | .loss => detectedFirstLoss k.clock t

/-- What a sequence of calls makes of the transfer. -/
def runCalls (t : Transfer) (ks : List CongestCall) : Transfer :=
  ks.foldl (fun t k => k.apply t) t

/-- The last reading of a sequence of calls that starts at the time `now`. -/
def lastReading (now : ℕ) (ks : List CongestCall) : ℕ :=
  ks.foldl (fun _ k => k.clock 2) now

/-- **The readings never go back**, from one call to the next and within a call. -/
def Paced : ℕ → List CongestCall → Prop
  | _, [] => True
  | now, k :: ks =>
      (now ≤ k.clock 0 ∧ k.clock 0 ≤ k.clock 1 ∧ k.clock 1 ≤ k.clock 2) ∧
        (∀ i, IsReading (k.clock i)) ∧ Paced (k.clock 2) ks

theorem paced_append {now : ℕ} {ks ks' : List CongestCall} :
    Paced now (ks ++ ks') ↔ Paced now ks ∧ Paced (lastReading now ks) ks' := by
  induction ks generalizing now with
  | nil => exact ⟨fun h => ⟨trivial, h⟩, fun h => h.2⟩
  | cons k ks ih =>
      rw [List.cons_append, Paced, Paced, ih, lastReading, lastReading, List.foldl_cons]
      exact ⟨fun h => ⟨⟨h.1, h.2.1, h.2.2.1⟩, h.2.2.2⟩, fun h => ⟨h.1.1, h.1.2.1, h.1.2.2, h.2⟩⟩

/-! ### Wrapping -/

/-- **No unsigned computation of the call wraps**: every difference has its operands in order and
every value fits the type it is computed or stored in.  The last part is the reading of
`graph_wind_size`, taken from the time `start` the program was started at. -/
def CongestCall.NoWrap (start : ℕ) (t : Transfer) (k : CongestCall) : Prop :=
  (match k.event, t.cctrl.congestState with
    | .ack, .ss =>
        (t.cctrl.rtt = 0 → t.timestamp ≤ k.clock 0 ∧ k.clock 0 - t.timestamp < 2 ^ 32) ∧
          (t.cctrl.windSize < t.cctrl.ssthresh → t.cctrl.windSize * 2 < 2 ^ 32)
    | .ack, .ca =>
        t.cctrl.rtt ≠ 0 → t.cctrl.rttTimer ≤ k.clock 0 ∧
          (k.clock 0 - t.cctrl.rttTimer) / t.cctrl.rtt + t.cctrl.startWindSize < 2 ^ 32
    | .loss, _ => True) ∧
  start ≤ k.clock 2

theorem sub64_of_le {x y : ℕ} (h : y ≤ x) (hx : x < 2 ^ 64) : sub64 x y = x - y := by
  rw [sub64, Nat.mod_eq_of_lt (lt_of_le_of_lt h hx)]
  omega

/-! ### The invariant -/

/-- The largest window at the time `now` of a transfer made at `t₀`. -/
def windBound (t₀ now : ℕ) : ℕ := defaultSsThresh + (now - t₀) / fixedRtt

theorem windBound_mono (t₀ : ℕ) {now now' : ℕ} (h : now ≤ now') :
    windBound t₀ now ≤ windBound t₀ now' :=
  Nat.add_le_add_left (Nat.div_le_div_right (Nat.sub_le_sub_right h t₀)) _

/-- Slow start: the window is a power of two, and the threshold is the first one or was at most half
of a window that kept to the bound. -/
structure InSlowStart (t₀ now : ℕ) (k : CongestCtrl) : Prop where
  power : ∃ j, k.windSize = 2 ^ j
  windSize_le : k.windSize ≤ windBound t₀ now
  ssthresh_le : k.ssthresh = defaultSsThresh ∨ k.ssthresh * 2 ≤ windBound t₀ now

/-- Congestion avoidance: the window grows by a piece a round trip from the one the mode was entered
with, which kept to the bound at that time. -/
structure InAvoidance (t₀ now : ℕ) (k : CongestCtrl) : Prop where
  timer : t₀ ≤ k.rttTimer ∧ k.rttTimer ≤ now
  start_pos : 1 ≤ k.startWindSize
  start_le : k.startWindSize ≤ windBound t₀ k.rttTimer
  start_le_windSize : k.startWindSize ≤ k.windSize
  windSize_le : k.windSize ≤ k.startWindSize + (now - k.rttTimer) / fixedRtt

/-- **The invariant** of a transfer made at `t₀`, at the time `now`. -/
structure InLaw (t₀ now : ℕ) (t : Transfer) : Prop where
  rtt : t.cctrl.rtt = fixedRtt
  two_le_ssthresh : 2 ≤ t.cctrl.ssthresh
  ss : t.cctrl.congestState = .ss → InSlowStart t₀ now t.cctrl
  ca : t.cctrl.congestState = .ca → InAvoidance t₀ now t.cctrl

theorem inLaw_createTransfer (peer c t₀ : ℕ) : InLaw t₀ t₀ (createTransfer peer c t₀) where
  rtt := rfl
  two_le_ssthresh := (by decide : 2 ≤ defaultSsThresh)
  ss := fun _ => ⟨⟨0, rfl⟩,
    Nat.le_add_right_of_le (by decide : defaultWindSize ≤ defaultSsThresh), Or.inl rfl⟩
  ca := fun h => nomatch h

theorem InSlowStart.mono {t₀ now now' : ℕ} {k : CongestCtrl} (h : InSlowStart t₀ now k)
    (hn : now ≤ now') : InSlowStart t₀ now' k where
  power := h.power
  windSize_le := le_trans h.windSize_le (windBound_mono t₀ hn)
  ssthresh_le := h.ssthresh_le.imp_right fun hs => le_trans hs (windBound_mono t₀ hn)

theorem InAvoidance.mono {t₀ now now' : ℕ} {k : CongestCtrl} (h : InAvoidance t₀ now k)
    (hn : now ≤ now') : InAvoidance t₀ now' k where
  timer := ⟨h.timer.1, le_trans h.timer.2 hn⟩
  start_pos := h.start_pos
  start_le := h.start_le
  start_le_windSize := h.start_le_windSize
  windSize_le := le_trans h.windSize_le
    (Nat.add_le_add_left (Nat.div_le_div_right (Nat.sub_le_sub_right hn _)) _)

theorem InLaw.mono {t₀ now now' : ℕ} {t : Transfer} (h : InLaw t₀ now t) (hn : now ≤ now') :
    InLaw t₀ now' t where
  rtt := h.rtt
  two_le_ssthresh := h.two_le_ssthresh
  ss := fun hm => (h.ss hm).mono hn
  ca := fun hm => (h.ca hm).mono hn

/-- The window of congestion avoidance keeps to the bound: the round trips before the mode was
entered and those since make up at most those of the whole time. -/
theorem InAvoidance.windSize_le_windBound {t₀ now : ℕ} {k : CongestCtrl}
    (h : InAvoidance t₀ now k) : k.windSize ≤ windBound t₀ now := by
  obtain ⟨hlo, hhi⟩ := h.timer
  have hstart := h.start_le
  have hwind := h.windSize_le
  simp only [windBound, fixedRtt] at hstart hwind ⊢
  omega

theorem InLaw.windSize_le {t₀ now : ℕ} {t : Transfer} (h : InLaw t₀ now t) :
    t.cctrl.windSize ≤ windBound t₀ now := by
  cases hm : t.cctrl.congestState with
  | ss => exact (h.ss hm).windSize_le
  | ca => exact (h.ca hm).windSize_le_windBound

theorem InLaw.windSize_pos {t₀ now : ℕ} {t : Transfer} (h : InLaw t₀ now t) :
    1 ≤ t.cctrl.windSize := by
  cases hm : t.cctrl.congestState with
  | ss =>
      obtain ⟨j, hj⟩ := (h.ss hm).power
      exact hj ▸ Nat.one_le_two_pow
  | ca => exact le_trans (h.ca hm).start_pos (h.ca hm).start_le_windSize

theorem windBound_lt {t₀ now : ℕ} (h : now < 2 ^ 30) : windBound t₀ now < 2 ^ 31 := by
  simp only [windBound, defaultSsThresh, fixedRtt]
  omega

/-! ### The computations of one call -/

/-- A window below the threshold can double: a power of two below 64 is at most 32, and below any
other threshold there is room by the bound on twice the threshold. -/
theorem InSlowStart.double_le {t₀ now : ℕ} {k : CongestCtrl} (h : InSlowStart t₀ now k)
    (hlt : k.windSize < k.ssthresh) : k.windSize * 2 ≤ windBound t₀ now := by
  rcases h.ssthresh_le with h64 | hle
  · obtain ⟨j, hj⟩ := h.power
    rw [h64, defaultSsThresh, hj, show 64 = 2 ^ 6 from rfl,
      Nat.pow_lt_pow_iff_right (by decide)] at hlt
    have hpow : 2 ^ (j + 1) ≤ 2 ^ 6 := Nat.pow_le_pow_right (by decide) hlt
    rw [hj, ← Nat.pow_succ]
    exact Nat.le_add_right_of_le hpow
  · omega

/-- The size congestion avoidance computes, without wrapping. -/
theorem avoidance_newWindSize {t₀ now : ℕ} {k : CongestCtrl} (h : InAvoidance t₀ now k)
    (hnow : now < 2 ^ 30) :
    (sub64 now k.rttTimer / fixedRtt + k.startWindSize) % 2 ^ 64 =
        k.startWindSize + (now - k.rttTimer) / fixedRtt ∧
      k.startWindSize + (now - k.rttTimer) / fixedRtt < 2 ^ 32 := by
  have hlt : windBound t₀ k.rttTimer < 2 ^ 31 := windBound_lt (lt_of_le_of_lt h.timer.2 hnow)
  have hstart := h.start_le
  rw [sub64_of_le h.timer.2 (lt_trans hnow (by decide))]
  simp only [fixedRtt] at *
  omega

/-- In slow start, with the round trip time set, a new acknowledgement doubles the window or enters
congestion avoidance with it. -/
theorem slowStart_cctrl (clock : ℕ → ℕ) {t : Transfer} (hrtt : t.cctrl.rtt ≠ 0) :
    (slowStart clock t).cctrl =
      if t.cctrl.windSize < t.cctrl.ssthresh then
        { t.cctrl with windSize := u32 (t.cctrl.windSize * 2) }
      else { t.cctrl with
        congestState := .ca, rttTimer := clock 1, startWindSize := t.cctrl.windSize } := by
  rw [slowStart]
  simp only [if_neg hrtt]
  split_ifs <;> rfl

/-- In congestion avoidance a new acknowledgement sets the window by the clock. -/
theorem congestionAvoidance_cctrl {clock : ℕ → ℕ} {t : Transfer} {t₀ : ℕ}
    (hrtt : t.cctrl.rtt = fixedRtt) (h : InAvoidance t₀ (clock 0) t.cctrl)
    (hnow : clock 0 < 2 ^ 30) :
    (congestionAvoidance clock t).cctrl = { t.cctrl with
      windSize := t.cctrl.startWindSize + (clock 0 - t.cctrl.rttTimer) / fixedRtt } := by
  obtain ⟨heq, hlt⟩ := avoidance_newWindSize h hnow
  have hne : fixedRtt ≠ 0 := by decide
  rw [congestionAvoidance]
  simp only [hrtt, if_neg hne, heq, u32_of_lt hlt]
  split_ifs with hwind
  · rfl
  · rw [← not_not.1 hwind, ← hrtt]

theorem detectedFirstLoss_cctrl (clock : ℕ → ℕ) (t : Transfer) :
    (detectedFirstLoss clock t).cctrl =
      match t.cctrl.congestState with
      | .ss => { t.cctrl with
          ssthresh := max (t.cctrl.windSize / 2) 2
          congestState := .ca
          rttTimer := clock 0
          startWindSize := t.cctrl.windSize }
      | .ca => { t.cctrl with
          ssthresh := max (t.cctrl.windSize / 2) 2
          windSize := 1
          congestState := .ss } := by
  have hmax : (if t.cctrl.windSize / 2 < 2 then 2 else t.cctrl.windSize / 2) =
      max (t.cctrl.windSize / 2) 2 := by split_ifs <;> omega
  rw [detectedFirstLoss]
  cases hm : t.cctrl.congestState with
  | ss => simp only [hmax]
  | ca => simp only [hmax]

/-! ### One call keeps the invariant -/

section Step

variable {t₀ now : ℕ} {t : Transfer}

theorem inLaw_slowStart {clock : ℕ → ℕ} (h : InLaw t₀ (clock 1) t)
    (hm : t.cctrl.congestState = .ss) (ht₀ : t₀ ≤ clock 1) (hnow : clock 1 < 2 ^ 30) :
    InLaw t₀ (clock 1) (slowStart clock t) := by
  have hss := h.ss hm
  have hrtt : t.cctrl.rtt ≠ 0 := by rw [h.rtt]; decide
  have hc := slowStart_cctrl clock hrtt
  by_cases hlt : t.cctrl.windSize < t.cctrl.ssthresh
  · have hdouble := hss.double_le hlt
    have hwrap : t.cctrl.windSize * 2 < 2 ^ 32 :=
      lt_of_le_of_lt hdouble (lt_trans (windBound_lt hnow) (by decide))
    rw [if_pos hlt, u32_of_lt hwrap] at hc
    obtain ⟨j, hj⟩ := hss.power
    constructor
    · rw [hc]; exact h.rtt
    · rw [hc]; exact h.two_le_ssthresh
    · intro _
      rw [hc]
      exact ⟨⟨j + 1, by rw [Nat.pow_succ, ← hj]⟩, hdouble, hss.ssthresh_le⟩
    · intro hca
      rw [hc] at hca
      exact absurd (hm.symm.trans hca) (by decide)
  · -- the window stays and becomes the one congestion avoidance starts from
    rw [if_neg hlt] at hc
    constructor
    · rw [hc]; exact h.rtt
    · rw [hc]; exact h.two_le_ssthresh
    · intro hs
      rw [hc] at hs
      exact nomatch hs
    · intro _
      rw [hc]
      exact ⟨⟨ht₀, le_rfl⟩, h.windSize_pos, hss.windSize_le, le_rfl, Nat.le_add_right _ _⟩

theorem inLaw_congestionAvoidance {clock : ℕ → ℕ} (h : InLaw t₀ (clock 0) t)
    (hm : t.cctrl.congestState = .ca) (hnow : clock 0 < 2 ^ 30) :
    InLaw t₀ (clock 0) (congestionAvoidance clock t) := by
  have hca := h.ca hm
  have hc := congestionAvoidance_cctrl h.rtt hca hnow
  constructor
  · rw [hc]; exact h.rtt
  · rw [hc]; exact h.two_le_ssthresh
  · intro hs
    rw [hc] at hs
    exact absurd (hm.symm.trans hs) (by decide)
  · intro _
    rw [hc]
    exact ⟨hca.timer, hca.start_pos, hca.start_le, Nat.le_add_right _ _, le_rfl⟩

theorem inLaw_detectedFirstLoss {clock : ℕ → ℕ} (h : InLaw t₀ (clock 0) t)
    (ht₀ : t₀ ≤ clock 0) : InLaw t₀ (clock 0) (detectedFirstLoss clock t) := by
  have hc := detectedFirstLoss_cctrl clock t
  have hpos := h.windSize_pos
  have hle := h.windSize_le
  have hbound : 64 ≤ windBound t₀ (clock 0) := Nat.le_add_right _ _
  cases hm : t.cctrl.congestState with
  | ss =>
      rw [hm] at hc
      constructor
      · rw [hc]; exact h.rtt
      · rw [hc]; exact le_max_right _ _
      · intro hs
        rw [hc] at hs
        exact nomatch hs
      · intro _
        rw [hc]
        exact ⟨⟨ht₀, le_rfl⟩, hpos, hle, le_rfl, Nat.le_add_right _ _⟩
  | ca =>
      rw [hm] at hc
      constructor
      · rw [hc]; exact h.rtt
      · rw [hc]; exact le_max_right _ _
      · intro _
        rw [hc]
        refine ⟨⟨0, rfl⟩, le_trans (by decide : 1 ≤ 64) hbound, Or.inr ?_⟩
        show max (t.cctrl.windSize / 2) 2 * 2 ≤ windBound t₀ (clock 0)
        omega
      · intro hs
        rw [hc] at hs
        exact nomatch hs

/-- **A call keeps the invariant**, at any time from its last reading on. -/
theorem inLaw_apply {k : CongestCall} (h : InLaw t₀ now t) (ht₀ : t₀ ≤ now)
    (hp : Paced now [k]) : InLaw t₀ (k.clock 2) (k.apply t) := by
  obtain ⟨⟨h0, h1, h2⟩, hread, -⟩ := hp
  rw [CongestCall.apply]
  cases hk : k.event with
  | ack =>
      simp only [congestionControl]
      cases hm : t.cctrl.congestState with
      | ss =>
          refine InLaw.mono ?_ h2
          exact inLaw_slowStart (h.mono (le_trans h0 h1)) hm (le_trans ht₀ (le_trans h0 h1))
            (hread 1).lt
      | ca =>
          refine InLaw.mono ?_ (le_trans h1 h2)
          exact inLaw_congestionAvoidance (h.mono h0) hm (hread 0).lt
  | loss =>
      refine InLaw.mono ?_ (le_trans h1 h2)
      exact inLaw_detectedFirstLoss (h.mono h0) (le_trans ht₀ h0)

/-- In a state with the invariant no computation of the next call wraps. -/
theorem noWrap_of_inLaw {k : CongestCall} {start : ℕ} (h : InLaw t₀ now t)
    (hstart : start ≤ now) (hp : Paced now [k]) : k.NoWrap start t := by
  obtain ⟨⟨h0, h1, h2⟩, hread, -⟩ := hp
  refine ⟨?_, by omega⟩
  cases hk : k.event with
  | ack =>
      cases hm : t.cctrl.congestState with
      | ss =>
          refine ⟨fun hrtt => ?_, fun hlt => ?_⟩
          · rw [h.rtt] at hrtt
            exact absurd hrtt (by decide)
          · have hdouble := ((h.mono h0).ss hm).double_le hlt
            exact lt_of_le_of_lt hdouble (lt_trans (windBound_lt (hread 0).lt) (by decide))
      | ca =>
          intro _
          have hca := (h.mono h0).ca hm
          rw [h.rtt, Nat.add_comm]
          exact ⟨hca.timer.2, (avoidance_newWindSize hca (hread 0).lt).2⟩
  | loss => trivial

/-- **What a call does to the window**: it never shrinks, except on a loss in congestion avoidance,
where slow start begins again at 1 with half of the old window for a threshold. -/
def CongestCall.Grows (t : Transfer) (k : CongestCall) : Prop :=
  if k.event = .loss ∧ t.cctrl.congestState = .ca then
    (k.apply t).cctrl.congestState = .ss ∧ (k.apply t).cctrl.windSize = 1 ∧
      (k.apply t).cctrl.ssthresh = max (t.cctrl.windSize / 2) 2
  else t.cctrl.windSize ≤ (k.apply t).cctrl.windSize

theorem grows_of_inLaw {k : CongestCall} (h : InLaw t₀ now t) (hp : Paced now [k]) :
    k.Grows t := by
  obtain ⟨⟨h0, h1, -⟩, hread, -⟩ := hp
  rw [CongestCall.Grows, CongestCall.apply]
  cases hk : k.event with
  | ack =>
      rw [if_neg (fun hl => nomatch hl.1)]
      simp only [congestionControl]
      cases hm : t.cctrl.congestState with
      | ss =>
          have hrtt : t.cctrl.rtt ≠ 0 := by rw [h.rtt]; decide
          show _ ≤ (slowStart k.clock t).cctrl.windSize
          rw [slowStart_cctrl k.clock hrtt]
          split_ifs with hlt
          · have hdouble := ((h.mono h0).ss hm).double_le hlt
            rw [u32_of_lt (lt_of_le_of_lt hdouble
              (lt_trans (windBound_lt (hread 0).lt) (by decide)))]
            exact Nat.le_mul_of_pos_right _ (by decide)
          · exact le_rfl
      | ca =>
          -- the old window was computed from an earlier reading
          have hca := (h.mono h0).ca hm
          show _ ≤ (congestionAvoidance k.clock t).cctrl.windSize
          rw [congestionAvoidance_cctrl h.rtt hca (hread 0).lt]
          exact hca.windSize_le
  | loss =>
      cases hm : t.cctrl.congestState with
      | ss =>
          rw [if_neg (fun hl => nomatch hl.2)]
          show _ ≤ (detectedFirstLoss k.clock t).cctrl.windSize
          rw [detectedFirstLoss_cctrl, hm]
      | ca =>
          rw [if_pos ⟨rfl, rfl⟩]
          show (detectedFirstLoss k.clock t).cctrl.congestState = .ss ∧
            (detectedFirstLoss k.clock t).cctrl.windSize = 1 ∧
            (detectedFirstLoss k.clock t).cctrl.ssthresh = _
          rw [detectedFirstLoss_cctrl, hm]
          exact ⟨rfl, rfl, rfl⟩

end Step

/-! ### The window law -/

theorem inLaw_runCalls {t₀ now : ℕ} {t : Transfer} {ks : List CongestCall} (h : InLaw t₀ now t)
    (ht₀ : t₀ ≤ now) (hp : Paced now ks) :
    InLaw t₀ (lastReading now ks) (runCalls t ks) ∧ t₀ ≤ lastReading now ks := by
  induction ks generalizing now t with
  | nil => exact ⟨h, ht₀⟩
  | cons k ks ih =>
      have hk : Paced now [k] := ⟨hp.1, hp.2.1, trivial⟩
      have hlast : t₀ ≤ k.clock 2 :=
        le_trans ht₀ (le_trans hp.1.1 (le_trans hp.1.2.1 hp.1.2.2))
      exact ih (inLaw_apply h ht₀ hk) hlast hp.2.2

/-- **The congestion window law**, for a transfer made at the reading `t₀` of a program started at
`start`: after any calls the window and the threshold are at least 1 and 2 and the window is at most
`64 + e / 200` for the `e` milliseconds since creation, and no computation of the next call wraps
and the window grows as `CongestCall.Grows` says. -/
theorem congestion_window_law {start t₀ : ℕ} (peer c : ℕ) (hstart : start ≤ t₀)
    {ks : List CongestCall} (hp : Paced t₀ ks) :
    (1 ≤ (runCalls (createTransfer peer c t₀) ks).cctrl.windSize ∧
      2 ≤ (runCalls (createTransfer peer c t₀) ks).cctrl.ssthresh ∧
      ∀ now, lastReading t₀ ks ≤ now →
        (runCalls (createTransfer peer c t₀) ks).cctrl.windSize ≤ 64 + (now - t₀) / 200) ∧
    ∀ k, Paced t₀ (ks ++ [k]) →
      k.NoWrap start (runCalls (createTransfer peer c t₀) ks) ∧
        k.Grows (runCalls (createTransfer peer c t₀) ks) := by
  obtain ⟨hlaw, ht₀⟩ := inLaw_runCalls (inLaw_createTransfer peer c t₀) le_rfl hp
  refine ⟨⟨hlaw.windSize_pos, hlaw.two_le_ssthresh, fun now hnow => ?_⟩, fun k hk => ?_⟩
  · exact le_trans hlaw.windSize_le (windBound_mono t₀ hnow)
  · have hk' := (paced_append.1 hk).2
    exact ⟨noWrap_of_inLaw hlaw (le_trans hstart ht₀) hk', grows_of_inLaw hlaw hk'⟩

/-- Two acknowledgements and two losses, a second apart. -/
theorem congestion_window_law_losses :
    (runCalls (createTransfer 0 0 1000)
      [⟨.ack, fun _ => 2000⟩, ⟨.loss, fun _ => 3000⟩, ⟨.ack, fun _ => 4000⟩,
        ⟨.loss, fun _ => 5000⟩]).cctrl.windSize ≤ 64 + (5000 - 1000) / 200 := by
  have hread : ∀ s, s < 2 ^ 20 → IsReading (s * 1000) := by
    intro s hs
    refine ⟨s, 0, by decide, ?_⟩
    have hsec : s &&& 0xfffff = s % 2 ^ 20 := Nat.and_two_pow_sub_one_eq_mod s 20
    rw [millitime, hsec, Nat.mod_eq_of_lt hs]
    omega
  refine (congestion_window_law 0 0 (show 0 ≤ 1000 by decide) ?_).1.2.2 5000 le_rfl
  exact ⟨by decide, fun _ => hread 2 (by decide), by decide, fun _ => hread 3 (by decide),
    by decide, fun _ => hread 4 (by decide), by decide, fun _ => hread 5 (by decide), trivial⟩

end P2P
