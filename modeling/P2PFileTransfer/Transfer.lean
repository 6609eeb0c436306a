/-
**A transfer and its congestion control** (`transfer.h`, `transfer.c`, `congestion.c`).

A transfer ties one chunk to one peer.  The server side of a transfer moves a window over the
pieces of the chunk, of a size that slow start doubles and congestion avoidance grows with time.
Counters are `unsigned`, 32 bits; times are `unsigned long`, 64 bits, and are readings of
`millitime` handed to the function as a sequence, one for each place the code reads the clock.

Main definitions:

* `P2P.CongestCtrl`, `P2P.Transfer`;
* `P2P.createTransfer`, `P2P.transferHasTimeout`;
* `P2P.congestionControl`, `P2P.detectedFirstLoss`.

Main results:

* `P2P.Transfer.SameWindow` and `P2P.congestionControl_same`, `P2P.detectedFirstLoss_same` —
  congestion control changes the size of the window and nothing that says where it is.
-/

import P2PFileTransfer.Chunk
import Mathlib.Algebra.Group.Nat.Defs

set_option relaxedAutoImplicit false
set_option autoImplicit false

namespace P2P

/-! ### Machine arithmetic -/

/-- Conversion to `uint32_t`. -/
def u32 (x : ℕ) : ℕ := x % 2 ^ 32

/-- Subtraction of two values of `unsigned long`. -/
def sub64 (x y : ℕ) : ℕ := (x + (2 ^ 64 - y % 2 ^ 64)) % 2 ^ 64

theorem u32_of_lt {x : ℕ} (h : x < 2 ^ 32) : u32 x = x := Nat.mod_eq_of_lt h

/-! ### Transfers -/

/-- `TIMEOUT_THRESHOLD`, in milliseconds. -/
def timeoutThreshold : ℕ := 3000

/-- `MAX_TO_COUNTS`. -/
def maxToCounts : ℕ := 5

/-- `DEFAULT_WIND_SIZE`. -/
def defaultWindSize : ℕ := 1

/-- `DEFAULT_SS_THRESH`. -/
def defaultSsThresh : ℕ := 64

/-- `RTT`, in milliseconds. -/
def fixedRtt : ℕ := 200

/-- `enum CongestType`. -/
inductive CongestType where
  /-- Slow start. -/
  | ss
  /-- Congestion avoidance. -/
  | ca
  deriving DecidableEq

/-- The structure `CongestCtrl`. -/
structure CongestCtrl where
  congestState : CongestType
  timeoutCount : ℕ
  /-- The repetitions of the last acknowledgement. -/
  dupCount : ℕ
  /-- The beginning of the window: the last acknowledgement received. -/
  begin : ℕ
  /-- The last piece sent. -/
  index : ℕ
  windSize : ℕ
  /-- The window size on entering congestion avoidance. -/
  startWindSize : ℕ
  rtt : ℕ
  ssthresh : ℕ
  /-- The time of entering congestion avoidance. -/
  rttTimer : ℕ

/-- The structure `Transfer`: `peer` and `c` are pointers. -/
structure Transfer where
  peer : ℕ
  c : ℕ
  cctrl : CongestCtrl
  timestamp : ℕ

/-- What `create_transfer` puts in the structure. -/
def createTransfer (peer c now : ℕ) : Transfer where
  peer := peer
  c := c
  cctrl :=
    { congestState := .ss
      timeoutCount := 0
      dupCount := 0
      begin := 0
      index := 0
      windSize := defaultWindSize
      startWindSize := 0
      rtt := fixedRtt
      ssthresh := defaultSsThresh
      rttTimer := 0 }
  timestamp := now

/-- `transfer_has_timeout`, with the clock reading `now`. -/
def transferHasTimeout (now : ℕ) (t : Transfer) : Bool :=
  decide (timeoutThreshold < sub64 now t.timestamp)

/-! ### Congestion control -/

/-- `slow_start`: the window doubles until it reaches the threshold. -/
def slowStart (clock : ℕ → ℕ) (t : Transfer) : Transfer :=
  let k := t.cctrl
  let k := if k.rtt = 0 then { k with rtt := u32 (sub64 (clock 0) t.timestamp) } else k
  if k.windSize < k.ssthresh then { t with cctrl := { k with windSize := u32 (k.windSize * 2) } }
  else { t with cctrl :=
    { k with congestState := .ca, rttTimer := clock 1, startWindSize := k.windSize } }

/-- `congestion_avoidance`: one piece more for every round trip since the mode was entered.  The
new size is computed in 64 bits, compared with the old one, and stored in 32. -/
def congestionAvoidance (clock : ℕ → ℕ) (t : Transfer) : Transfer :=
  let k := t.cctrl
  if k.rtt = 0 then t
  else
    let newWindSize := (sub64 (clock 0) k.rttTimer / k.rtt + k.startWindSize) % 2 ^ 64
    if k.windSize ≠ newWindSize then { t with cctrl := { k with windSize := u32 newWindSize } }
    else t

/-- `congestion_control`. -/
def congestionControl (clock : ℕ → ℕ) (t : Transfer) : Transfer :=
  match t.cctrl.congestState with
  | .ss => slowStart clock t
  | .ca => congestionAvoidance clock t

/-- `detected_first_loss`: the threshold is halved, and the mode switches to the other one. -/
def detectedFirstLoss (clock : ℕ → ℕ) (t : Transfer) : Transfer :=
  let k := { t.cctrl with
    ssthresh := if t.cctrl.windSize / 2 < 2 then 2 else t.cctrl.windSize / 2 }
  match k.congestState with
  | .ss => { t with cctrl :=
      { k with congestState := .ca, rttTimer := clock 0, startWindSize := k.windSize } }
  | .ca => { t with cctrl := { k with windSize := 1, congestState := .ss } }

/-! ### What congestion control leaves alone -/

/-- Two states of a transfer with the same peer, chunk, window position and counters. -/
structure Transfer.SameWindow (t t' : Transfer) : Prop where
  peer : t'.peer = t.peer
  c : t'.c = t.c
  begin : t'.cctrl.begin = t.cctrl.begin
  index : t'.cctrl.index = t.cctrl.index
  dupCount : t'.cctrl.dupCount = t.cctrl.dupCount
  timeoutCount : t'.cctrl.timeoutCount = t.cctrl.timeoutCount

theorem slowStart_same (clock : ℕ → ℕ) (t : Transfer) : t.SameWindow (slowStart clock t) := by
  unfold slowStart
  constructor <;> dsimp only <;> split_ifs <;> rfl

theorem congestionAvoidance_same (clock : ℕ → ℕ) (t : Transfer) :
    t.SameWindow (congestionAvoidance clock t) := by
  unfold congestionAvoidance
  constructor <;> dsimp only <;> split_ifs <;> rfl

theorem congestionControl_same (clock : ℕ → ℕ) (t : Transfer) :
    t.SameWindow (congestionControl clock t) := by
  unfold congestionControl
  cases t.cctrl.congestState with
  | ss => exact slowStart_same clock t
  | ca => exact congestionAvoidance_same clock t

theorem detectedFirstLoss_same (clock : ℕ → ℕ) (t : Transfer) :
    t.SameWindow (detectedFirstLoss clock t) := by
  unfold detectedFirstLoss
  cases h : t.cctrl.congestState with
  | ss => constructor <;> simp [h]
  | ca => constructor <;> simp [h]

end P2P
