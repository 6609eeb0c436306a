/-
**What can still happen to a swarm.**

A continuation is what a swarm does when its users ask for nothing more: datagrams arrive, and the
timeouts of a peer are handled when `select` has waited for five seconds, while the clocks go on.
The network has every datagram that was ever sent, so a datagram can arrive again at the peer that
it was sent to, and the peers keep what the earlier modules say of them.

The first thing that a continuation can do is to silence the server of a peer: when nobody
acknowledges anything, five timeouts end all of its transfers.

Main definitions:

* `P2P.Onward` — what a peer keeps while its user asks for nothing;
* `P2P.Swarm.Unattended` — actions that `peer_run` takes without a request;
* `P2P.Swarm.Reach` — what can be reached by them;
* `P2P.Swarm.Good` — **the invariant**: all that is known of the peers.

Main results:

* `P2P.Swarm.step_each` — a step of the swarm, seen by one peer;
* `P2P.Swarm.Good.step`, `P2P.Swarm.Good.reach` — the invariant is kept;
* `P2P.Swarm.Good.onward` — **no request is lost**: it goes on, or its output was made;
* `P2P.Swarm.Good.deliver` — **what was sent can arrive**, at any later time;
* `P2P.Swarm.Good.hush` — **a server can be silenced**.
-/

import P2PFileTransfer.Congestion
import P2PFileTransfer.Faultless
import P2PFileTransfer.Readiness

set_option relaxedAutoImplicit false
set_option autoImplicit false

namespace P2P

/-! ### Timeouts of the server -/

/-- The transfer was not acknowledged for too long at the time `time`. -/
theorem transferHasTimeout_of_lt {time : ℕ} {t : Transfer} (htime : time < 2 ^ 30)
    (h : t.timestamp + timeoutThreshold < time) : transferHasTimeout time t = true := by
  have hpow : (2 : ℕ) ^ 30 < 2 ^ 64 := by decide
  rw [transferHasTimeout, decide_eq_true_iff,
    sub64_of_le (Nat.le_of_lt (Nat.lt_of_le_of_lt (Nat.le_add_right _ _) h)) (htime.trans hpow)]
  omega

/-- **The loop counts a timeout for every transfer that it has before it**, and those that it leaves
behind it have one more. -/
theorem counts_serverTimeoutLoop {time k : ℕ} (htime : time < 2 ^ 30) (rest : List Transfer) :
    ∀ (left : List Transfer) (fuel : ℕ) (s : State), rest.length ≤ fuel →
      s.outgoing = left ++ rest → (∀ n, s.clock n = time) →
      (∀ t ∈ rest, t.timestamp + timeoutThreshold < time ∧ t.cctrl.timeoutCount < maxToCounts ∧
        k ≤ t.cctrl.timeoutCount) →
      (∀ t ∈ left, k + 1 ≤ t.cctrl.timeoutCount) →
      ∀ t ∈ (serverTimeoutLoop fuel left.length s).outgoing, k + 1 ≤ t.cctrl.timeoutCount := by
  induction rest with
  | nil =>
      intro left fuel s _ hout _ _ hleft
      rw [List.append_nil] at hout
      have hnone : s.outgoing[left.length]? = none := by
        rw [hout, List.getElem?_eq_none (Nat.le_refl _)]
      have hloop : serverTimeoutLoop fuel left.length s = s := by
        cases fuel with
        | zero => rfl
        | succ fuel => rw [serverTimeoutLoop, hnone]
      rw [hloop, hout]
      exact hleft
  | cons t rest ih =>
      intro left fuel s hfuel hout hclock hrest hleft
      obtain ⟨hstamp, halive, hk⟩ := hrest t (List.mem_cons_self ..)
      have hrest' := fun u hu => hrest u (List.mem_cons_of_mem t hu)
      have hi : s.outgoing[left.length]? = some t := by
        rw [hout, List.getElem?_append_right (Nat.le_refl _), Nat.sub_self]
        rfl
      have hlate : t.verdict (s.clock 0) ≠ .quiet := by
        rw [Transfer.verdict, hclock, if_pos (transferHasTimeout_of_lt htime hstamp)]
        split <;> exact fun hv => by cases hv
      cases fuel with
      | zero => exact absurd hfuel (Nat.not_succ_le_zero _)
      | succ fuel =>
          rw [List.length_cons, Nat.add_le_add_iff_right] at hfuel
          rw [serverTimeoutLoop, hi]
          dsimp only
          obtain ⟨-, heq⟩ | ⟨t', heq, -, ⟨hv, -⟩ | ⟨-, hcount⟩⟩ := timeoutTransfer_verdict s.clock t
          · -- the transfer dies, and the next one takes its place
            rw [heq]
            refine ih left fuel _ hfuel ?_ ?_ hrest' hleft
            · rw [State.deleteOutgoing_eq (s := s.tick 2) hi]
              show s.outgoing.eraseIdx left.length = left ++ rest
              rw [hout, List.eraseIdx_append_of_length_le (Nat.le_refl _), Nat.sub_self,
                List.eraseIdx_cons_zero]
            · intro n
              rw [State.deleteOutgoing_eq (s := s.tick 2) hi]
              exact hclock (2 + n)
          · exact absurd hv hlate
          · rw [heq]
            have hnext := ih (left ++ [t']) fuel
              { s.tick 2 with outgoing := s.outgoing.set left.length t' } hfuel ?_
              (fun n => hclock (2 + n)) hrest' ?_
            · rwa [List.length_append, List.length_singleton] at hnext
            · show s.outgoing.set left.length t' = left ++ [t'] ++ rest
              rw [hout, List.set_append_right _ _ (Nat.le_refl _), Nat.sub_self,
                List.append_assoc]
              rfl
            · intro u hu
              rcases List.mem_append.1 hu with hu | hu
              · exact hleft u hu
              · rw [List.mem_singleton.1 hu, hcount, u32_succ_count halive]
                omega

theorem frame_clock (s : State) (clock : ℕ → ℕ) : Frame s { s with clock := clock } :=
  ⟨rfl, rfl, rfl, rfl, rfl, rfl, fun _ => rfl, fun _ => rfl, rfl, fun _ => rfl, rfl⟩

/-! ### A peer that is asked for nothing -/

/-- What the request says of a chunk. -/
def Chunk.label (c : Chunk) : UInt32 × HexHash × BinHash := (c.id, c.hexHash, c.binHash)

/-- **The same request**: what is wanted, where it is to be written, and what was written before. -/
structure SameRequest (s s' : State) : Prop where
  wanted : s'.wanted = s.wanted
  chunkFile : s'.userGetChunkFile = s.userGetChunkFile
  outputFile : s'.userOutputFilename = s.userOutputFilename
  label : ∀ q, (s'.chunks.cell q).label = (s.chunks.cell q).label
  outputs : s'.outputs = s.outputs

namespace SameRequest

variable {s s' s'' : State}

theorem refl (s : State) : SameRequest s s := ⟨rfl, rfl, rfl, fun _ => rfl, rfl⟩

theorem trans (h : SameRequest s s') (h' : SameRequest s' s'') : SameRequest s s'' :=
  ⟨h'.wanted.trans h.wanted, h'.chunkFile.trans h.chunkFile, h'.outputFile.trans h.outputFile,
    fun q => (h'.label q).trans (h.label q), h'.outputs.trans h.outputs⟩

theorem of_frame (h : Frame s s') : SameRequest s s' := by
  refine ⟨h.wanted, h.chunkFile, h.outputFile, fun q => ?_, h.outputs⟩
  have hq := congrArg Chunk.label (h.content q)
  exact hq

theorem modifyChunk (s : State) (q : ℕ) {f : Chunk → Chunk}
    (hf : (f (s.chunks.cell q)).label = (s.chunks.cell q).label) :
    SameRequest s (s.modifyChunk q f) := by
  refine ⟨rfl, rfl, rfl, fun r => ?_, rfl⟩
  rw [State.modifyChunk, Heap.cell_modify]
  split
  · rename_i hrq
    rw [hrq]
    exact hf
  · rfl

end SameRequest

theorem label_storeData {pack : Packet} {c c' : Chunk} (h : storeData pack c = .ok c') :
    c'.label = c.label := by
  obtain ⟨-, ⟨-, rfl⟩ | ⟨-, -, -, rfl⟩⟩ := storeData_cases h
  · rfl
  · rw [Chunk.label, Chunk.label]

/-- **What becomes of a request**: it goes on, with chunks missing if there were any before; or the
last missing chunk came, and the output is made. -/
def Proceeds (s s' : State) : Prop :=
  SameRequest s s' ∧ (s'.missing = [] → s.missing = []) ∨
    s.missing ≠ [] ∧ s'.missing = [] ∧ ∃ s₁, SameRequest s s₁ ∧
      s'.outputs = s.outputs ++ [s₁.output]

/-- What comes before and after, and leaves the missing chunks alone. -/
theorem Proceeds.between {s s₁ s₂ s' : State} (h : Proceeds s₁ s₂) (h₁ : SameRequest s s₁)
    (hmiss₁ : s₁.missing = s.missing) (h₂ : Frame s₂ s') : Proceeds s s' := by
  rw [Proceeds, h₂.missing, h₂.outputs, ← hmiss₁]
  rcases h with ⟨hsame, hback⟩ | ⟨hne, hempty, s₃, hsame, hout⟩
  · exact Or.inl ⟨(h₁.trans hsame).trans (.of_frame h₂), hback⟩
  · exact Or.inr ⟨hne, hempty, s₃, h₁.trans hsame, h₁.outputs ▸ hout⟩

/-- A complete chunk that is missing is discarded, or its request goes on, or ends. -/
theorem proceeds_finishChunk (shahash : List UInt8 → BinHash) {s : State} {q : ℕ}
    (hq : q ∈ s.missing) : Proceeds s (finishChunk shahash s q) := by
  obtain ⟨-, heq⟩ | ⟨-, hnone, -⟩ | ⟨-, j, r, -, -, -, heq⟩ := finishChunk_cases shahash s q
  · rw [heq]
    exact Or.inl ⟨.modifyChunk s q rfl, fun h => h⟩
  · exact absurd rfl (hnone q hq)
  · have hsame : SameRequest s (s.accept j q) := ⟨rfl, rfl, rfl, fun _ => rfl, rfl⟩
    rw [heq, checkAllReceived]
    split
    · rename_i hempty
      exact Or.inr ⟨List.ne_nil_of_mem hq, hempty, s.accept j q, hsame,
        outputs_constructData (s.accept j q)⟩
    · rename_i hmore
      exact Or.inl ⟨hsame, fun hempty => absurd hempty hmore⟩

/-- **A step that is no request.** -/
theorem proceeds_step {shahash : List UInt8 → BinHash} {s s' : State} {e : Event}
    (hc : ClientList s) (hget : e.NoGet) (he : step shahash s e = .ok s') : Proceeds s s' := by
  obtain ⟨chunkFile, outputFile, lines, rfl, -⟩ | ⟨_, pack, peer, -, -, -, hr⟩ | hmoves :=
    step_cases he
  · exact hget.elim
  · obtain ⟨-, rfl⟩ | ⟨i, t, c, hfind, hstore, s₁, hs₁, hend⟩ := receiveDATA_cases hr
    · exact Or.inl ⟨.refl _, fun h => h⟩
    · have hf₁ : Frame (s.modifyChunk t.c fun _ => c) s₁ :=
        (hs₁ ▸ moves_sendACK _ _ _ : Moves Kind.Any _ s₁).frame
      have hmiss₁ : s₁.missing = s.missing := hf₁.missing
      have h₁ : SameRequest s s₁ :=
        (SameRequest.modifyChunk s t.c (f := fun _ => c) (label_storeData hstore)).trans
          (.of_frame hf₁)
      rcases hend with ⟨-, rfl⟩ | ⟨-, rfl⟩
      · exact Or.inl ⟨h₁, fun h => hmiss₁ ▸ h⟩
      · have hlast : Moves Kind.Any (finishChunk shahash s₁ t.c)
            (getChunkData ((finishChunk shahash s₁ t.c).deleteIncoming i)) :=
          moves_afterFinish trivial trivial _ i
        refine (proceeds_finishChunk shahash ?_).between h₁ hmiss₁ hlast.frame
        rw [hmiss₁]
        exact hc.missing t (mem_of_nodeFind hfind)
  · exact Or.inl ⟨.of_frame hmoves.frame, fun h => hmoves.frame.missing ▸ h⟩

/-- **What a peer keeps while its user asks for nothing**: nothing more is missing, what is owned
stays owned, and its request proceeds. -/
structure Onward (s s' : State) : Prop where
  missing : s'.missing.Sublist s.missing
  binHash : ∀ q ∈ s'.missing, s'.binHash q = s.binHash q
  owns : ∀ hash, s.Owns hash → s'.Owns hash
  proceeds : Proceeds s s'

namespace Onward

variable {s s' s'' : State}

theorem refl (s : State) : Onward s s :=
  ⟨.refl _, fun _ _ => rfl, fun _ h => h, Or.inl ⟨.refl s, fun h => h⟩⟩

theorem trans (h : Onward s s') (h' : Onward s' s'') : Onward s s'' where
  missing := h'.missing.trans h.missing
  binHash q hq := (h'.binHash q hq).trans (h.binHash q (h'.missing.subset hq))
  owns hash hown := h'.owns hash (h.owns hash hown)
  proceeds := by
    rcases h.proceeds with ⟨hsame, hback⟩ | ⟨hne, hempty, s₁, hsame, hout⟩
    · rcases h'.proceeds with ⟨hsame', hback'⟩ | ⟨hne', hempty', s₁, hsame', hout'⟩
      · exact Or.inl ⟨hsame.trans hsame', fun hempty => hback (hback' hempty)⟩
      · exact Or.inr ⟨fun hnil => hne' (List.sublist_nil.1 (hnil ▸ h.missing)), hempty', s₁,
          hsame.trans hsame', hsame.outputs ▸ hout'⟩
    · rcases h'.proceeds with ⟨hsame', -⟩ | ⟨hne', -⟩
      · exact Or.inr ⟨hne, List.sublist_nil.1 (hempty ▸ h'.missing), s₁, hsame,
          hsame'.outputs.trans hout⟩
      · exact absurd hempty hne'

/-- **One step.** -/
theorem of_step {shahash : List UInt8 → BinHash} {own : ℕ} {start : ℕ → Chunk} {kept : List ℕ}
    {e : Event} (hi : Intact shahash own start kept s) (hserving : Serving s) (hc : ClientList s)
    (hget : e.NoGet) (he : step shahash s e = .ok s') : Onward s s' := by
  have hsub := (step_noGet hget he).1
  have hreacts := step_reacts (fun t ht => (hi.incoming t ht).2)
    (fun t ht => hi.lt_of_owned (hserving t ht)) he
  exact ⟨hsub, fun q hq => hreacts.binHash q (hi.missing q (hsub.subset hq)).2,
    fun hash hown => Swarm.owns_step hi hserving he hown, proceeds_step hc hget he⟩

end Onward

namespace Swarm

variable {setup : SwarmSetup} {shahash : List UInt8 → BinHash}

/-! ### Continuations -/

/-- The milliseconds that `peer_run` waits in `select`, before it handles the timeouts. -/
def selectTimeout : ℕ := 5000

/-- **A continuation**: datagrams arrive, and the timeouts of a peer are handled, first those of its
server and then those of its client, when nothing has happened for as long as `select` waits.  The
clock shows one time during each action and does not go back. -/
inductive Unattended : ℕ → List (Action setup) → ℕ → Prop
  | nil {now now' : ℕ} (h : now ≤ now') : Unattended now [] now'
  | deliver {now time now' : ℕ} {as : List (Action setup)} (i : setup.Peer) (k : ℕ)
      (rest : ℕ → UInt8) (h : now ≤ time) (has : Unattended time as now') :
      Unattended now (⟨.deliver i k rest, fun _ => time⟩ :: as) now'
  | handleTimeout {now time now' : ℕ} {as : List (Action setup)} (i : setup.Peer)
      (h : now + selectTimeout ≤ time) (has : Unattended time as now') :
      Unattended now (⟨.serverTimeout i, fun _ => time⟩ :: ⟨.clientTimeout i, fun _ => time⟩ :: as)
        now'

/-- The actions are no requests, the clock shows one time during each of them, and time passes from
one to the next and to the end. -/
def NoRequests : ℕ → List (Action setup) → ℕ → Prop
  | now, [], now' => now ≤ now'
  | now, a :: as, now' => ∃ time, now ≤ time ∧ (a.clock = fun _ => time) ∧
      (∀ i chunkFile outputFile lines, a.label ≠ .userGet i chunkFile outputFile lines) ∧
      NoRequests time as now'

namespace Unattended

variable {now₀ now now' now'' : ℕ} {as bs : List (Action setup)}

theorem noRequests (h : Unattended now as now') : NoRequests now as now' := by
  induction h with
  | nil h => exact h
  | deliver i k rest h _ ih => exact ⟨_, h, rfl, (fun _ _ _ _ heq => by cases heq), ih⟩
  | handleTimeout i h _ ih =>
      exact ⟨_, (Nat.le_add_right _ _).trans h, rfl, (fun _ _ _ _ heq => by cases heq), _, le_rfl,
        rfl, (fun _ _ _ _ heq => by cases heq), ih⟩

theorem wait (hnow : now₀ ≤ now) (h : Unattended now as now') : Unattended now₀ as now' := by
  cases h with
  | nil h => exact .nil (hnow.trans h)
  | deliver i k rest h has => exact .deliver i k rest (hnow.trans h) has
  | handleTimeout i h has =>
      exact .handleTimeout i ((Nat.add_le_add_right hnow _).trans h) has

theorem append (h : Unattended now as now') (h' : Unattended now' bs now'') :
    Unattended now (as ++ bs) now'' := by
  induction h with
  | nil h => exact h'.wait h
  | deliver i k rest h _ ih => exact .deliver i k rest h (ih h')
  | handleTimeout i h _ ih => exact .handleTimeout i h (ih h')

end Unattended

/-- **What can be reached** from one time to another. -/
def Reach (shahash : List UInt8 → BinHash) (now : ℕ) (w : Swarm setup) (now' : ℕ)
    (w' : Swarm setup) : Prop :=
  ∃ as, Unattended now as now' ∧ Machine.run (step shahash) w as = .ok w'

namespace Reach

variable {now now' now'' : ℕ} {w w' w'' : Swarm setup}

theorem wait (w : Swarm setup) (hnow : now ≤ now') : Reach shahash now w now' w :=
  ⟨[], .nil hnow, rfl⟩

theorem trans (h : Reach shahash now w now' w') (h' : Reach shahash now' w' now'' w'') :
    Reach shahash now w now'' w'' := by
  obtain ⟨as, has, hrun⟩ := h
  obtain ⟨bs, hbs, hrun'⟩ := h'
  exact ⟨as ++ bs, has.append hbs, by rw [Machine.run_append _ hrun, hrun']⟩

/-- A datagram arrives. -/
theorem deliver (i : setup.Peer) (k : ℕ) (rest : ℕ → UInt8) (hnow : now ≤ now')
    (h : step shahash w ⟨.deliver i k rest, fun _ => now'⟩ = .ok w') :
    Reach shahash now w now' w' :=
  ⟨[⟨.deliver i k rest, fun _ => now'⟩], .deliver i k rest hnow (.nil le_rfl), by
    rw [Machine.run_cons_ok _ h, Machine.run_nil]⟩

/-- The timeouts of a peer are handled. -/
theorem handleTimeout (w : Swarm setup) (i : setup.Peer) (hnow : now + selectTimeout ≤ now') :
    Reach shahash now w now' (Function.update w i (handleClientTimeout
      { handleServerTimeout { w i with clock := fun _ => now' } with
        clock := fun _ => now' })) := by
  refine ⟨_, .handleTimeout i hnow (.nil le_rfl), ?_⟩
  have hserver : step shahash w ⟨.serverTimeout i, fun _ => now'⟩ = .ok (Function.update w i
      (handleServerTimeout { w i with clock := fun _ => now' })) := rfl
  have hclient : ∀ u : Swarm setup, step shahash u ⟨.clientTimeout i, fun _ => now'⟩ =
      .ok (Function.update u i (handleClientTimeout { u i with clock := fun _ => now' })) :=
    fun _ => rfl
  rw [Machine.run_cons_ok _ hserver, Machine.run_cons_ok _ (hclient _), Machine.run_nil,
    Function.update_self, Function.update_idem]

end Reach

/-! ### The invariant -/

/-- **A step of the swarm, seen by one peer**: it takes a step of its own, or nothing happens. -/
theorem step_each {w w' : Swarm setup} (hmade : w.AllMade) {a : Action setup}
    (h : step shahash w a = .ok w') (j : setup.Peer) :
    w' j = w j ∨ ∃ e, w.Causes a j e ∧
      P2P.step shahash { w j with clock := a.clock } e = .ok (w' j) := by
  rcases step_eq hmade shahash a with heq | ⟨i, e, hcauses, heq⟩
  · rw [h] at heq
    cases heq
    exact Or.inl rfl
  · rw [heq] at h
    obtain ⟨s, hs, rfl⟩ := react_ok h
    by_cases hj : j = i
    · subst hj
      rw [Function.update_self]
      exact Or.inr ⟨e, hcauses, hs⟩
    · exact Or.inl (Function.update_of_ne hj ..)

/-- **The invariant**: what is known of the peers at a time that no clock has passed. -/
structure Good (shahash : List UInt8 → BinHash) (first : Swarm setup) (now : ℕ)
    (w : Swarm setup) : Prop where
  sound : Sound shahash first w
  faultless : Faultless shahash first w
  served : ∀ i, Served shahash (setup.own i).length (first i).chunks.cell (w i)
  ready : ∀ i, Ready now (w i)
  identity : ∀ i, (w i).identity = (setup.peers.get i).1
  maxConn : ∀ i, (w i).maxConn = setup.maxConn i

/-- What the invariant takes of the set-up: ports and identifiers differ, and the chunks that are
owned first have the data of their hashes. -/
structure Sane (shahash : List UInt8 → BinHash) (first : Swarm setup) : Prop where
  ports : setup.PortsDiffer
  ids : (setup.peers.map Prod.fst).Nodup
  conns : ∀ i, 0 < setup.maxConn i
  verified : ∀ i, ∀ q < (setup.own i).length, ((first i).chunks.cell q).Verified shahash

/-- A chunk that is accepted is the missing chunk itself, as hashes differ. -/
theorem acceptsItself (shahash : List UInt8 → BinHash) {s : State} (hdiffer : HashesDiffer s)
    (hc : ClientList s) (e : Event) : AcceptsItself shahash s e := by
  cases e with
  | packet src pack =>
      intro peer i t c _ _ hfind _ _ _ j r hr
      rw [HashesDiffer, List.map_append] at hdiffer
      have hsame := compareChunkByBinHash_iff.1 (nodeFind_eq_some_iff.1 hr).2.1
      exact List.inj_on_of_nodup_map (List.nodup_append.1 hdiffer).1 (mem_of_nodeFind hr)
        (hc.missing t (mem_of_nodeFind hfind)) hsame
  | userGet chunkFile outputFile lines => trivial
  | clientTimeout => trivial
  | serverTimeout => trivial

namespace Good

variable {first w w' : Swarm setup} {now now' : ℕ}

/-- **Every step keeps the invariant**, if requests are clear and no clock goes back. -/
theorem step (h : Good shahash first now w) (hsane : Sane shahash first) {a : Action setup}
    (hnow : now ≤ now') (hclock : ∀ k, a.clock k ≤ now') (hclear : w.ClearRequest a)
    (hw : Swarm.step shahash w a = .ok w') : Good shahash first now' w' := by
  have hmade := h.faultless.made
  refine ⟨h.sound.step hsane.ports hsane.verified hw, ?_, fun i => ?_, fun i => ?_, fun i => ?_,
    fun i => ?_⟩
  · obtain ⟨w'', hw'', hgood⟩ := h.faultless.step hclear
    rw [hw] at hw''
    cases hw''
    exact hgood
  · rcases step_each hmade hw i with heq | ⟨e, -, he⟩
    · rw [heq]
      exact h.served i
    · have hs : Served shahash (setup.own i).length (first i).chunks.cell
          { w i with clock := a.clock } :=
        ⟨Sound.clock (h.sound.intact i) a.clock, (h.served i).wanted, (h.served i).outputs⟩
      have hc : ClientList { w i with clock := a.clock } :=
        ⟨(h.faultless.clients i).nodup, (h.faultless.clients i).missing⟩
      have hdiffer : HashesDiffer { w i with clock := a.clock } := h.faultless.differ i
      exact hs.step (hsane.verified i) (acceptsItself shahash hdiffer hc e) he
  · rcases step_each hmade hw i with heq | ⟨e, -, he⟩
    · rw [heq]
      exact ⟨(h.ready i).asked, (h.ready i).accounted, (h.ready i).alive,
        fun t ht => ((h.ready i).stamped t ht).trans hnow⟩
    · exact ((h.ready i).clock a.clock).step (Sound.clock (h.sound.intact i) a.clock)
        (h.sound.serving i) hnow hclock he
  · rcases step_each hmade hw i with heq | ⟨e, -, he⟩
    · rw [heq]
      exact h.identity i
    · exact (identity_step he).trans (h.identity i)
  · rcases step_each hmade hw i with heq | ⟨e, -, he⟩
    · rw [heq]
      exact h.maxConn i
    · exact (maxConn_step he).trans (h.maxConn i)

theorem mono (h : Good shahash first now w) (hnow : now ≤ now') : Good shahash first now' w :=
  ⟨h.sound, h.faultless, h.served, fun i => ⟨(h.ready i).asked, (h.ready i).accounted,
    (h.ready i).alive, fun t ht => ((h.ready i).stamped t ht).trans hnow⟩, h.identity, h.maxConn⟩

/-- A continuation keeps the invariant. -/
theorem reach (h : Good shahash first now w) (hsane : Sane shahash first)
    (hreach : Reach shahash now w now' w') : Good shahash first now' w' := by
  obtain ⟨as, has, hrun⟩ := hreach
  replace has := has.noRequests
  induction as generalizing w now with
  | nil =>
      cases hrun
      exact h.mono has
  | cons a as ih =>
      obtain ⟨time, hnow, hclock, hlabel, hrest⟩ := has
      obtain ⟨u, hu, hrun⟩ := Machine.run_cons_inv _ hrun
      refine ih (h.step hsane hnow (fun k => ?_) ?_ hu) hrun hrest
      · rw [hclock]
      · intro i chunkFile outputFile lines heq
        exact absurd heq (hlabel i chunkFile outputFile lines)

/-- The invariant after a run from set-up. -/
theorem of_run {clock : setup.Peer → ℕ → ℕ} {junk : setup.Peer → ℕ → Packet}
    (hsane : Sane shahash (start setup clock junk))
    (hown : ∀ i, ((setup.own i).map fun line => binHashOf line.2).Nodup)
    {as : List (Action setup)}
    (hclear : Machine.Along (Swarm.step shahash) ClearRequest (start setup clock junk) as)
    (hclock : ∀ a ∈ as, ∀ k, a.clock k ≤ now)
    (hrun : Machine.run (Swarm.step shahash) (start setup clock junk) as = .ok w) :
    Good shahash (start setup clock junk) now w := by
  have hfirst : Good shahash (start setup clock junk) now (start setup clock junk) :=
    ⟨Sound.start shahash setup clock junk, Faultless.start shahash hown clock junk,
      fun i => ⟨(Sound.start shahash setup clock junk).intact i,
        fun _ hq => absurd hq List.not_mem_nil, fun _ he => absurd he List.not_mem_nil⟩,
      fun i => ready_peerSetup (setup.side i) (clock i) (junk i) now, fun _ => rfl, fun _ => rfl⟩
  generalize start setup clock junk = first at hsane hclear hrun hfirst ⊢
  have hgo : ∀ (as : List (Action setup)) (u : Swarm setup), Good shahash first now u →
      Machine.Along (Swarm.step shahash) ClearRequest u as → (∀ a ∈ as, ∀ k, a.clock k ≤ now) →
      Machine.run (Swarm.step shahash) u as = .ok w → Good shahash first now w := by
    intro as
    induction as with
    | nil =>
        intro u hu _ _ hrun
        cases hrun
        exact hu
    | cons a as ih =>
        intro u hu hclear hclock hrun
        obtain ⟨v, hv, hrun⟩ := Machine.run_cons_inv _ hrun
        exact ih v (hu.step hsane le_rfl (hclock a (List.mem_cons_self ..)) hclear.1 hv)
          (hclear.2 v hv) (fun b hb => hclock b (List.mem_cons_of_mem _ hb)) hrun
  exact hgo as first hfirst hclear hclock hrun

/-- **What was sent can arrive**, at any later time. -/
theorem deliver (h : Good shahash first now w) (hsane : Sane shahash first) {i j : setup.Peer}
    {pack : Packet} (hsent : w.HasSent j i pack) {time : ℕ} (hnow : now ≤ time) :
    ∃ s, receivePacket shahash { w i with clock := fun _ => time } (setup.addr j) j pack = .ok s ∧
      Reach shahash now w time (Function.update w i s) := by
  obtain ⟨about, hmem⟩ := hsent
  obtain ⟨k, hk⟩ := List.mem_iff_getElem?.1 hmem
  have hmade := h.faultless.made j _ hmem _ pack about rfl
  obtain ⟨w', hw', -⟩ := h.faultless.step
    (a := ⟨.deliver j k fun _ => 0, fun _ => time⟩) fun _ _ _ _ hlabel => by cases hlabel
  have hreach : Reach shahash now w time w' := .deliver j k _ hnow hw'
  rw [step_deliver hk hmade] at hw'
  obtain ⟨s, hs, rfl⟩ := react_ok hw'
  have hconf : Configured setup { w i with clock := fun _ => time } :=
    ⟨(h.sound.configured i).next, (h.sound.configured i).peerId, (h.sound.configured i).addr⟩
  rw [P2P.step, findPeer_addr hsane.ports hconf j] at hs
  exact ⟨s, hs, hreach⟩

/-- **What a peer keeps in every step of its own is kept in a continuation.** -/
theorem keeps (h : Good shahash first now w) (hsane : Sane shahash first)
    (hreach : Reach shahash now w now' w') {R : State → State → Prop} (hrefl : ∀ s, R s s)
    (htrans : ∀ s s' s'', R s s' → R s' s'' → R s s'')
    (hclock : ∀ s clock, R s { s with clock := clock })
    (hstep : ∀ i s s' e, Intact shahash (setup.own i).length (first i).chunks.cell [] s →
      Serving s → ClientList s → e.NoGet → P2P.step shahash s e = .ok s' → R s s')
    (i : setup.Peer) : R (w i) (w' i) := by
  obtain ⟨as, has, hrun⟩ := hreach
  replace has := has.noRequests
  induction as generalizing w now with
  | nil =>
      cases hrun
      exact hrefl _
  | cons a as ih =>
      obtain ⟨time, hnow, hatime, hlabel, hrest⟩ := has
      obtain ⟨u, hu, hrun⟩ := Machine.run_cons_inv _ hrun
      have hgood := h.step hsane hnow (fun k => by rw [hatime])
        (fun i chunkFile outputFile lines heq => absurd heq (hlabel i chunkFile outputFile lines))
        hu
      refine htrans _ _ _ ?_ (ih hgood hrun hrest)
      rcases step_each h.faultless.made hu i with heq | ⟨e, hcauses, he⟩
      · rw [heq]
        exact hrefl _
      · have hget : e.NoGet := by
          cases e with
          | userGet chunkFile outputFile lines =>
              exact absurd hcauses (hlabel i chunkFile outputFile lines)
          | _ => trivial
        exact htrans _ _ _ (hclock (w i) a.clock) (hstep i _ _ e
          (Sound.clock (h.sound.intact i) a.clock) (h.sound.serving i)
          ⟨(h.faultless.clients i).nodup, (h.faultless.clients i).missing⟩ hget he)

/-- **What peers keep in a continuation.** -/
theorem onward (h : Good shahash first now w) (hsane : Sane shahash first)
    (hreach : Reach shahash now w now' w') : ∀ i, Onward (w i) (w' i) :=
  h.keeps hsane hreach Onward.refl (fun _ _ _ => Onward.trans)
    (fun s clock => ⟨.refl _, fun _ _ => rfl, fun _ h => h,
      Or.inl ⟨.of_frame (frame_clock s clock), fun h => h⟩⟩)
    fun _ _ _ _ hi hserving hc hget he => Onward.of_step hi hserving hc hget he

/-- **A server can be silenced**: the timeouts are handled until it has no transfer. -/
theorem hush (h : Good shahash first now w) (hsane : Sane shahash first) (i : setup.Peer)
    (htime : now + maxToCounts * selectTimeout < 2 ^ 30) :
    ∃ s, Reach shahash now w (now + maxToCounts * selectTimeout) (Function.update w i s) ∧
      s.outgoing = [] ∧ Frame (w i) s := by
  have hrounds : ∀ k ≤ maxToCounts, ∃ s,
      Reach shahash now w (now + k * selectTimeout) (Function.update w i s) ∧
      (∀ t ∈ s.outgoing, k ≤ t.cctrl.timeoutCount ∧ t.timestamp ≤ now) ∧ Frame (w i) s := by
    intro k hk
    induction k with
    | zero =>
        refine ⟨w i, ?_, fun t ht => ⟨Nat.zero_le _, (h.ready i).stamped t ht⟩, .refl _⟩
        rw [Function.update_eq_self]
        exact .wait w (Nat.le_add_right _ _)
    | succ k ih =>
        obtain ⟨s, hreach, hcounts, hframe⟩ := ih (Nat.le_of_succ_le hk)
        have halive := ((h.reach hsane hreach).ready i).alive
        rw [Function.update_self] at halive
        have hlate : now + timeoutThreshold < now + (k + 1) * selectTimeout := by
          rw [timeoutThreshold, selectTimeout]
          omega
        have hbound : now + (k + 1) * selectTimeout < 2 ^ 30 :=
          lt_of_le_of_lt (Nat.add_le_add_left (Nat.mul_le_mul_right _ hk) _) htime
        generalize htime' : now + (k + 1) * selectTimeout = time at hlate hbound ⊢
        have hround : Reach shahash _ _ time _ :=
          .handleTimeout (Function.update w i s) i (by rw [← htime', Nat.succ_mul, Nat.add_assoc])
        rw [Function.update_self, Function.update_idem] at hround
        have hserver := (moves_handleServerTimeout trivial { s with clock := fun _ => time } :
          Moves Kind.Any _ _).frame
        have hclient := (moves_handleClientTimeout trivial trivial
          { handleServerTimeout { s with clock := fun _ => time } with clock := fun _ => time } :
            Moves Kind.Any _ _).frame
        refine ⟨_, hreach.trans hround, fun t ht => ?_,
          (((hframe.trans (frame_clock s _)).trans hserver).trans (frame_clock _ _)).trans hclient⟩
        rw [(ServerKept.handleClientTimeout _).outgoing] at ht
        refine ⟨?_, stamped_handleServerTimeout (s := { s with clock := fun _ => time })
          (fun u hu => (hcounts u hu).2) t ht⟩
        refine counts_serverTimeoutLoop hbound s.outgoing [] s.outgoing.length
          { s with clock := fun _ => time } (Nat.le_refl _) rfl (fun _ => rfl) ?_
          (fun _ hu => absurd hu List.not_mem_nil) t ht
        intro u hu
        have hstamp := (hcounts u hu).2
        exact ⟨by omega, halive u.node (List.mem_map_of_mem hu), (hcounts u hu).1⟩
  obtain ⟨s, hreach, hcounts, hframe⟩ := hrounds maxToCounts le_rfl
  have halive := ((h.reach hsane hreach).ready i).alive
  rw [Function.update_self] at halive
  refine ⟨s, hreach, List.eq_nil_iff_forall_not_mem.2 fun t ht => ?_, hframe⟩
  have hlt := halive t.node (List.mem_map_of_mem ht)
  exact absurd (hcounts t ht).1 (Nat.not_le_of_lt hlt)

end Good

end Swarm

end P2P
