import CppTest.PaxosNetworkProofs
import Mathlib.Data.Finset.Card
import Mathlib.Data.Fintype.Basic

/-! # What the two majorities of a ballot mean

    A proposer counts replies: flag 2 before it proposes, flag 4 before it reports a
    value as chosen.  This file says when the counts stand for a majority of the
    peers.

    * `promise_quorum` — behind every proposal stands a majority that promised its
      ballot, if every promise is counted in the ballot it was given for
      (`PromiseInTime`).  A promise does not carry its ballot, and one that is
      delivered after the next `paxos_prepare` counts for the wrong one
      (`promise_quorum_fails`);
    * `accept_quorum` — behind every reported value stands a majority that accepted it,
      if every acceptance is counted in its ballot and once per peer, and the rounds
      are kept (`AcceptInTime`).  Proposals are sent again, and acceptances are counted
      again (`accept_quorum_fails`). -/

namespace Paxos

/-! ## Deciding conditions on runs -/

instance (N : Nat) (ok : Cluster → Label → Prop) [∀ s l, Decidable (ok s l)] :
    ∀ (s : Cluster) (ls : List Label), Decidable (AllSteps N ok s ls)
  | _, [] => inferInstanceAs (Decidable True)
  | s, l :: ls =>
      have : Decidable (match clusterStep N s l with
          | none => True
          | some s' => AllSteps N ok s' ls) :=
        match clusterStep N s l with
        | none => inferInstanceAs (Decidable True)
        | some s' => instDecidableAllSteps N ok s' ls
      inferInstanceAs (Decidable (_ ∧ _))

/-! ## Who did what -/

/-- The peers of `i` whose acceptor did `a`. -/
def actors (N : Nat) (s : Cluster) (i : Nat) (a : Act) : Finset Nat :=
  (Finset.range N).filter fun j => j ≠ i ∧ a ∈ (s.host j).acts

theorem mem_actors {N : Nat} {s : Cluster} {i j : Nat} {a : Act} :
    j ∈ actors N s i a ↔ j ∈ peers N i ∧ a ∈ (s.host j).acts := by
  simp only [actors, Finset.mem_filter, Finset.mem_range, mem_peers, and_assoc]

theorem actors_mono {N : Nat} {s s' : Cluster} (h : ∀ j, (s.host j).acts ⊆ (s'.host j).acts)
    (i : Nat) (a : Act) : (actors N s i a).card ≤ (actors N s' i a).card := by
  refine Finset.card_le_card fun j hj => ?_
  obtain ⟨hpeer, hact⟩ := mem_actors.mp hj
  exact mem_actors.mpr ⟨hpeer, h j hact⟩

/-- Different peers that all did `a`. -/
theorem length_le_actors {N : Nat} {s : Cluster} {i : Nat} {a : Act} {js : List Nat}
    (hnd : js.Nodup) (h : ∀ j ∈ js, j ∈ peers N i ∧ a ∈ (s.host j).acts) :
    js.length ≤ (actors N s i a).card := by
  rw [← List.toFinset_card_of_nodup hnd]
  refine Finset.card_le_card fun j hj => ?_
  exact mem_actors.mpr (h j (List.mem_toFinset.mp hj))

/-! ## Promises -/

/-- The peers that promised the ballot `b` to `i`. -/
def promisers (N : Nat) (s : Cluster) (i b : Nat) : Finset Nat := actors N s i (.promise i b)

/-- A promise is delivered while the proposer is still at the ballot it was given
    for. -/
def PromiseInTime (s : Cluster) : Label → Prop
  | .reply p => p.msg.flag = 2 → p.ballot = (s.host p.dst).ctx.tTry
  | .echo _ _ => True
  | .recv _ _ => True
  | .beforeWait _ _ => True

/-- The ballot changes with `paxos_echo` only. -/
theorem nodeStep_tTry (ctx : Ctx) {e : Event} (he : ∀ str, e ≠ .echo str) :
    (nodeStep ctx e).ctx.tTry = ctx.tTry := by
  cases e with
  | echo str => exact absurd rfl (he str)
  | recv src msg io =>
      obtain ⟨_, _, _, _, hframe⟩ := fdIo_frame ctx src msg io
      show (epollHandlePaxosFdIo ctx src msg io).1.tTry = _
      rw [hframe]
  | reply src msg =>
      obtain ⟨_, _, _, _, _, hframe⟩ := nodeFdIo_frame ctx src msg
      show (epollHandlePaxosNodeFdIo ctx src msg).1.tTry = _
      rw [hframe]
  | beforeWait env => rfl

/-- After a step, a flag 3 message is an old one, or was just packed from one, or is of
    the current ballot and a promise has just been counted beyond the majority. -/
theorem Offered.of_nodeStep {ctx : Ctx} {sent : List Packet} {e : Event} {b : Nat} {v : Value}
    (h : Offered (nodeStep ctx e).ctx (sent ++ (nodeStep ctx e).requests) b v) :
    Offered ctx sent b v ∨
    (∃ env, e = .beforeWait env ∧ ∃ q ∈ queue ctx, q.msg.flag = 3 ∧ q.msg.proposalid = b ∧
      ∃ j k, v = (pack ctx.valueTry.gen (env.stale j k) q).value) ∨
    (∃ src msg, e = .reply src msg ∧ msg.flag = 2 ∧ ctx.nNodes / 2 < ctx.nProposeOk + 1 ∧
      b = ctx.tTry ∧ v = (countPromise ctx src msg).valueTry.bytes) := by
  cases e with
  | echo str =>
      have h' : Offered (paxosEcho ctx str) (sent ++ []) b v := h
      rw [List.append_nil] at h'
      exact Or.inl (h'.mono queue_paxosEcho)
  | recv src msg io =>
      obtain ⟨_, _, _, _, hframe⟩ := fdIo_frame ctx src msg io
      have h' : Offered (epollHandlePaxosFdIo ctx src msg io).1 (sent ++ []) b v := h
      rw [hframe, List.append_nil] at h'
      exact Or.inl h'
  | reply src msg =>
      have h' : Offered (epollHandlePaxosNodeFdIo ctx src msg).1 (sent ++ []) b v := h
      rw [List.append_nil] at h'
      rcases nodeFdIo_cases ctx src msg with ⟨-, -, hr⟩ | ⟨-, h2, hr⟩ | ⟨-, -, hr⟩
      · rw [hr] at h'
        exact Or.inl (h'.mono queue_countSuccess)
      · rw [hr] at h'
        rcases h'.of_promise with hold | hnew
        · exact Or.inl hold
        · exact Or.inr (Or.inr ⟨src, msg, rfl, h2, hnew⟩)
      · rw [hr] at h'
        exact Or.inl h'
  | beforeWait env =>
      rcases Offered.of_beforeWait h with hold | hpacked
      · exact Or.inl hold
      · exact Or.inr (Or.inl ⟨env, rfl, hpacked⟩)

/-- What the promises that `i` has counted in this round stand for, and the proposals
    of `i`. -/
structure Promised (N : Nat) (s : Cluster) (i : Nat) : Prop where
  heard : ∀ x ∈ (s.host i).heard, x.1 ∈ peers N i ∧
    Act.promise i (s.host i).ctx.tTry ∈ (s.host x.1).acts ∧
    (2, (s.host i).ctx.tTry) ∉ pending s x.1
  nodup : ((s.host i).heard.map Prod.fst).Nodup
  backed : ∀ b v, Offered (s.host i).ctx (s.host i).sent b v → N / 2 < (promisers N s i b).card

/-- A promise that is counted was given for the current ballot, and is the only one of
    its peer for that ballot. -/
def PromiseCounts (N : Nat) (s : Cluster) (i : Nat) : Event → Prop
  | .reply src msg => msg.flag = 2 → src ∈ peers N i ∧
      Act.promise i (s.host i).ctx.tTry ∈ (s.host src).acts ∧
      (2, (s.host i).ctx.tTry) ∉ pending s src ∧ src ∉ (s.host i).heard.map Prod.fst
  | .echo _ => True
  | .recv _ _ _ => True
  | .beforeWait _ => True

/-- A promise once consumed does not come back. -/
theorem not_pending_act {N : Nat} {s : Cluster} (h : Base N s) {i : Nat} (hi : i < N) (e : Event)
    {j k b : Nat} (hj : j < N) (hact : Act.promise k b ∈ (s.host j).acts)
    (hnot : (2, b) ∉ pending s j) : (2, b) ∉ pending (s.act i e) j := by
  intro hmem
  rcases (pending_act_promises h hi e hj).2 b hmem with hold | hlt
  · exact hnot hold
  · have hle : b ≤ (s.host j).ctx.tMax := (h.node j hj).acceptor.acts_le _ hact
    exact absurd hle (Nat.not_le_of_lt hlt)

theorem mem_heardAfter {heard : List (Nat × Promise)} {e : Event} {x : Nat × Promise}
    (h : x ∈ heardAfter heard e) : (x ∈ heard ∧ ∀ str, e ≠ .echo str) ∨
      ∃ msg, e = .reply x.1 msg ∧ msg.flag = 2 ∧ x.2 = ⟨msg.proposalid, msg.value⟩ := by
  cases e with
  | echo str => exact absurd h List.not_mem_nil
  | recv src msg io => exact Or.inl ⟨h, fun _ h => Event.noConfusion h⟩
  | beforeWait env => exact Or.inl ⟨h, fun _ h => Event.noConfusion h⟩
  | reply src msg =>
      by_cases h2 : msg.flag = 2
      · simp only [heardAfter, if_pos h2] at h
        cases List.mem_append.mp h with
        | inl hold => exact Or.inl ⟨hold, fun _ h => Event.noConfusion h⟩
        | inr hnew =>
            rw [List.mem_singleton.mp hnew]
            exact Or.inr ⟨msg, rfl, h2, rfl⟩
      · simp only [heardAfter, if_neg h2] at h
        exact Or.inl ⟨h, fun _ h => Event.noConfusion h⟩

theorem nodeStep_reply_tTry (ctx : Ctx) (src : Nat) (msg : Msg) :
    (nodeStep ctx (.reply src msg)).ctx.tTry = ctx.tTry :=
  nodeStep_tTry ctx fun _ h => nomatch h

theorem Promised.other {N : Nat} {s : Cluster} (hb : Base N s) {i k : Nat} (hi : i < N)
    (hk : k ≠ i) (h : Promised N s k) (e : Event) : Promised N (s.act i e) k := by
  have hsame := act_host_ne s i e hk
  refine ⟨?_, ?_, ?_⟩
  · rw [hsame]
    intro x hx
    obtain ⟨hpeer, hact, hnot⟩ := h.heard x hx
    refine ⟨hpeer, act_acts_subset s i e x.1 hact, ?_⟩
    exact not_pending_act hb hi e (mem_peers.mp hpeer).1 hact hnot
  · rw [hsame]
    exact h.nodup
  · rw [hsame]
    intro b v hoff
    exact (h.backed b v hoff).trans_le (actors_mono (act_acts_subset s i e) k _)

section Self
variable {N : Nat} {s : Cluster} {i : Nat} {e : Event} (h : Promised N s i)
  (he : PromiseCounts N s i e)
include h he

/-- The promises counted after the step are of the ballot after the step. -/
theorem Promised.heard_after : ∀ x ∈ heardAfter (s.host i).heard e, x.1 ∈ peers N i ∧
    Act.promise i (nodeStep (s.host i).ctx e).ctx.tTry ∈ (s.host x.1).acts ∧
    (2, (nodeStep (s.host i).ctx e).ctx.tTry) ∉ pending s x.1 := by
  intro x hx
  rcases mem_heardAfter hx with ⟨hold, hecho⟩ | ⟨msg, rfl, h2, -⟩
  · rw [nodeStep_tTry _ hecho]
    exact h.heard x hold
  · obtain ⟨hpeer, hact, hnot, -⟩ := he h2
    rw [nodeStep_reply_tTry]
    exact ⟨hpeer, hact, hnot⟩

theorem Promised.nodup_after : ((heardAfter (s.host i).heard e).map Prod.fst).Nodup := by
  cases e with
  | echo str => exact List.nodup_nil
  | recv src msg io => exact h.nodup
  | beforeWait env => exact h.nodup
  | reply src msg =>
      by_cases h2 : msg.flag = 2
      · simp only [heardAfter, if_pos h2, List.map_append]
        refine List.nodup_append.mpr ⟨h.nodup, List.nodup_singleton _, ?_⟩
        intro j hj j' hj' heq
        rw [heq, List.mem_singleton.mp hj'] at hj
        exact (he h2).2.2.2 hj
      · simp only [heardAfter, if_neg h2]
        exact h.nodup

theorem Promised.self (hb : Base N s) (hi : i < N) : Promised N (s.act i e) i := by
  refine ⟨?_, ?_, ?_⟩
  · rw [act_host_self]
    intro x hx
    obtain ⟨hpeer, hact, hnot⟩ := h.heard_after he x hx
    refine ⟨hpeer, act_acts_subset s i e x.1 hact, ?_⟩
    exact not_pending_act hb hi e (mem_peers.mp hpeer).1 hact hnot
  · rw [act_host_self]
    exact h.nodup_after he
  · rw [act_host_self]
    intro b v hoff
    refine lt_of_lt_of_le ?_ (actors_mono (act_acts_subset s i e) i _)
    rcases Offered.of_nodeStep hoff with hold | ⟨env, -, q, hq, hflag, hid, -⟩ |
      ⟨src, msg, rfl, h2, hlt, rfl, -⟩
    · exact h.backed b v hold
    · exact h.backed b _ (Or.inr ⟨q, hq, hflag, hid, rfl⟩)
    · -- the counter is the number of promises heard, each of another peer
      refine lt_of_lt_of_le ?_ (length_le_actors (h.nodup_after he) fun j hj => ?_)
      · rw [List.length_map, heardAfter, if_pos h2, List.length_append, List.length_singleton,
          (hb.node i hi).heard_length]
        rw [(hb.node i hi).nNodes] at hlt
        exact hlt
      · obtain ⟨x, hx, rfl⟩ := List.mem_map.mp hj
        obtain ⟨hpeer, hact, -⟩ := h.heard_after he x hx
        rw [nodeStep_reply_tTry] at hact
        exact ⟨hpeer, hact⟩

end Self

theorem Promised.take {N : Nat} {s s' : Cluster} {i : Nat} (h : Promised N s i)
    (ht : Taken s s') : Promised N s' i := by
  obtain ⟨hhost, -, hrep⟩ := ht
  have hpend : ∀ j, pending s' j ⊆ pending s j := by
    intro j
    unfold pending
    rw [hhost]
    exact ((List.Sublist.refl _).append ((hrep.filter _).map _)).subset
  have hactors : ∀ a, actors N s' i a = actors N s i a := by
    intro a
    unfold actors
    rw [hhost]
  refine ⟨?_, ?_, ?_⟩
  · rw [hhost]
    intro x hx
    obtain ⟨hpeer, hact, hnot⟩ := h.heard x hx
    exact ⟨hpeer, hact, fun hmem => hnot (hpend _ hmem)⟩
  · rw [hhost]
    exact h.nodup
  · rw [hhost]
    intro b v hoff
    rw [promisers, hactors]
    exact h.backed b v hoff

/-- Delivering a reply takes it from the pending ones. -/
theorem pending_erase {s : Cluster} {p : Packet} (hp : p ∈ s.replies) :
    (pending s p.src).Perm ((p.msg.flag, p.ballot) ::
      pending { s with replies := s.replies.erase p } p.src) := by
  have hperm := ((List.perm_cons_erase hp).filter fun q => decide (q.src = p.src)).map
    fun q => (q.msg.flag, q.ballot)
  rw [List.filter_cons_of_pos (by simp), List.map_cons] at hperm
  exact (List.Perm.append_left _ hperm).trans List.perm_middle

/-- A promise that is delivered in time counts. -/
theorem promiseCounts_of_inTime {N : Nat} {s : Cluster} (hb : Base N s) {p : Packet}
    (hp : p ∈ s.replies) (h : Promised N s p.dst) (hin : PromiseInTime s (.reply p)) :
    PromiseCounts N { s with replies := s.replies.erase p } p.dst (.reply p.src p.msg) := by
  intro h2
  have hballot : p.ballot = (s.host p.dst).ctx.tTry := hin h2
  obtain ⟨hsrc, hans⟩ := hb.wire.replies p hp
  have hperm := pending_erase hp
  rw [h2, hballot] at hperm
  rcases hans with ⟨-, hact⟩ | ⟨h4, -⟩
  · refine ⟨(hb.wire.promises _ hsrc _ _ hact).2, hballot ▸ hact, ?_, ?_⟩
    · intro hmem
      have hnd := (hperm.filter fun k => decide (k.1 = 2)).nodup_iff.mp (hb.wire.once _ hsrc)
      rw [List.filter_cons_of_pos (by simp)] at hnd
      exact (List.nodup_cons.mp hnd).1 (List.mem_filter.mpr ⟨hmem, decide_eq_true rfl⟩)
    · intro hmem
      obtain ⟨x, hx, hxsrc⟩ := List.mem_map.mp hmem
      obtain ⟨-, -, hnot⟩ := h.heard x hx
      rw [hxsrc] at hnot
      exact hnot (hperm.mem_iff.mpr (List.mem_cons_self ..))
  · rw [h2] at h4
    exact nomatch h4

/-- What holds in a run whose promises are in time. -/
structure PromiseQuorum (N : Nat) (s : Cluster) : Prop where
  base : Base N s
  promised : ∀ i, i < N → Promised N s i

theorem PromiseQuorum.act {N : Nat} {s : Cluster} (h : PromiseQuorum N s) {i : Nat} (hi : i < N)
    {e : Event} (hsrc : Sourced N s i e) (he : PromiseCounts N s i e) :
    PromiseQuorum N (s.act i e) := by
  refine ⟨h.base.act hi hsrc, ?_⟩
  intro k hk
  by_cases hki : k = i
  · rw [hki]
    exact (h.promised i hi).self he h.base hi
  · exact (h.promised k hk).other h.base hi hki e

theorem PromiseQuorum.take {N : Nat} {s s' : Cluster} (h : PromiseQuorum N s)
    (ht : Taken s s') : PromiseQuorum N s' :=
  ⟨h.base.take ht, fun i hi => (h.promised i hi).take ht⟩

/-- What counts is what is in time. -/
theorem PromiseQuorum.counts {N : Nat} {s s₀ : Cluster} {l : Label} {i : Nat} {e : Event}
    (h : PromiseQuorum N s) (hok : PromiseInTime s l) (hcause : Causes s l s₀ i e) :
    PromiseCounts N s₀ i e := by
  cases hcause with
  | echo => trivial
  | recv => trivial
  | reply p hp =>
      exact promiseCounts_of_inTime h.base hp (h.promised _ (h.base.reply_dst hp)) hok
  | beforeWait => trivial

theorem PromiseQuorum.step {N : Nat} {s s' : Cluster} {l : Label} (h : PromiseQuorum N s)
    (hok : PromiseInTime s l) (hstep : clusterStep N s l = some s') : PromiseQuorum N s' := by
  obtain ⟨s₀, i, e, hcause, hi, hsrc, rfl⟩ := h.base.step_cases hstep
  exact (h.take hcause.taken).act hi hsrc (h.counts hok hcause)

theorem promiseQuorum_init (N : Nat) : PromiseQuorum N (clusterInit N) := by
  refine ⟨base_init N, fun i _ => ⟨(fun x hx => nomatch hx), List.nodup_nil, ?_⟩⟩
  intro b v hoff
  have hround := round_init i (peers N i)
  have hle := hround.le b v hoff
  obtain rfl : b = 0 := Nat.le_zero.mp hle
  exact absurd (hround.now v hoff).1 (Nat.not_lt_zero _)

/-- **Promise quorum**: in every run in which each promise is delivered while its
    proposer is still at the ballot it was given for, more than half of the nodes,
    all of them peers of the proposer, have promised the ballot of every flag 3
    message that was sent. -/
theorem promise_quorum (N : Nat) (ls : List Label) (s : Cluster)
    (hrun : clusterRun N (clusterInit N) ls = some s)
    (hok : AllSteps N PromiseInTime (clusterInit N) ls) :
    ∀ i, i < N → ∀ p ∈ (s.host i).sent, p.msg.flag = 3 →
      (s.host i).ctx.nNodes / 2 < (promisers N s i p.msg.proposalid).card := by
  have h : PromiseQuorum N s := clusterRun_invariant (fun _ _ _ hI hok hs => hI.step hok hs)
    (promiseQuorum_init N) hok hrun
  intro i hi p hp hflag
  rw [(h.base.node i hi).nNodes]
  exact (h.promised i hi).backed _ _ (Or.inl ⟨p, hp, hflag, rfl, rfl⟩)

/-! ### Two runs of three nodes -/

instance (s : Cluster) : ∀ l : Label, Decidable (PromiseInTime s l)
  | .reply _ => inferInstanceAs (Decidable (_ → _))
  | .echo _ _ => inferInstanceAs (Decidable True)
  | .recv _ _ => inferInstanceAs (Decidable True)
  | .beforeWait _ _ => inferInstanceAs (Decidable True)

/-- The flag 1, 3 or 5 message of `i` to `j` in the ballot `b`. -/
def requestFrom (i j flag b : Nat) (v : Value) : Packet := ⟨i, j, ⟨1, i, b, flag, false, v⟩, b⟩

/-- The reply of `j` to `i` in the ballot `b`, with the stored proposal `t`, `v`. -/
def replyFrom (j i flag b t : Nat) (v : Value) : Packet := ⟨j, i, ⟨1, j, t, flag, flag == 4, v⟩, b⟩

/-- The client of `i` asks for `v`, and the peers `js` promise the ballot `b`. -/
def preparedBy (i : Nat) (js : List Nat) (b : Nat) (v : Value) : List Label :=
  [.echo i v, .beforeWait i allSent] ++ js.map fun j => .recv (requestFrom i j 1 b v) .sent

/-- The promises of the ballot `b` reach `i`, with the stored proposal `t`, `v`. -/
def promisedTo (i : Nat) (js : List Nat) (b t : Nat) (v : Value) : List Label :=
  (js.map fun j => .reply (replyFrom j i 2 b t v)) ++ [.beforeWait i allSent]

theorem promise_quorum_three : ∃ s, clusterRun 3 (clusterInit 3)
      (preparedBy 0 [1, 2] 1 [97] ++ promisedTo 0 [1, 2] 1 0 []) = some s ∧
    requestFrom 0 1 3 1 [97] ∈ (s.host 0).sent ∧
    ∀ i, i < 3 → ∀ p ∈ (s.host i).sent, p.msg.flag = 3 →
      (s.host i).ctx.nNodes / 2 < (promisers 3 s i p.msg.proposalid).card :=
  ⟨_, rfl, by decide, promise_quorum 3
    (preparedBy 0 [1, 2] 1 [97] ++ promisedTo 0 [1, 2] 1 0 []) _ rfl (by decide)⟩

/-- Between the promises of ballot 1 and their delivery the client asks again: the
    proposal of ballot 2 goes out, and nobody has promised ballot 2. -/
theorem promise_quorum_fails : ∃ s, clusterRun 3 (clusterInit 3)
      (preparedBy 0 [1, 2] 1 [97] ++ [.echo 0 [97]] ++ promisedTo 0 [1, 2] 1 0 []) = some s ∧
    requestFrom 0 1 3 2 [97] ∈ (s.host 0).sent ∧
    ¬ (s.host 0).ctx.nNodes / 2 < (promisers 3 s 0 2).card :=
  ⟨_, rfl, by decide, by decide⟩

/-! ## Acceptances -/

/-- The peers that accepted `v` in the ballot `b` of `i`. -/
def accepters (N : Nat) (s : Cluster) (i b : Nat) (v : Value) : Finset Nat :=
  actors N s i (.accept i b v)

/-- An acceptance is delivered while the proposer is still at its ballot, and only the
    first one of each peer in that ballot; no promise is late and larger; `++t_try`
    does not wrap. -/
def AcceptInTime (s : Cluster) : Label → Prop
  | .echo i _ => (s.host i).ctx.tTry + 1 < 2 ^ 64
  | .reply p => NotLateAndLarger (s.host p.dst).ctx p.msg ∧
      (p.msg.flag = 4 → p.msg.proposalid = (s.host p.dst).ctx.tTry ∧
        p.src ∉ (s.host p.dst).counted)
  | .recv _ _ => True
  | .beforeWait _ _ => True

/-- Once a proposal of the current ballot exists, `value_try` stays until the next
    `paxos_echo`. -/
theorem Round.value_stays {ctx : Ctx} {sent : List Packet} (h : Round ctx sent) {e : Event}
    (hok : KeepsRound ctx e) (he : ∀ str, e ≠ .echo str) {v : Value}
    (hoff : Offered ctx sent ctx.tTry v) : (nodeStep ctx e).ctx.valueTry = ctx.valueTry := by
  cases e with
  | echo str => exact absurd rfl (he str)
  | recv src msg io =>
      obtain ⟨_, _, _, _, hframe⟩ := fdIo_frame ctx src msg io
      show (epollHandlePaxosFdIo ctx src msg io).1.valueTry = _
      rw [hframe]
  | reply src msg =>
      show (epollHandlePaxosNodeFdIo ctx src msg).1.valueTry = _
      rcases nodeFdIo_cases ctx src msg with ⟨-, -, hr⟩ | ⟨-, h2, hr⟩ | ⟨-, -, hr⟩
      · obtain ⟨_, hframe⟩ := (countSuccess_spec ctx).frame
        rw [hr, hframe]
      · rw [hr]
        exact h.late hok h2 (h.now v hoff).1
      · rw [hr]
  | beforeWait env => rfl

/-- A value is reported when an acceptance has just been counted beyond the
    majority. -/
theorem nodeStep_report {ctx : Ctx} {e : Event} {rep : Report}
    (h : (nodeStep ctx e).report = some rep) : ∃ src msg, e = .reply src msg ∧
      (msg.hasPreacceptid && msg.flag == 4) = true ∧
      ctx.nNodes / 2 < ctx.nProposeSuccess + 1 ∧
      rep = ⟨ctx.instanceId, ctx.tTry, ctx.valueTry.bytes⟩ := by
  cases e with
  | echo str => exact nomatch h
  | recv src msg io => exact nomatch h
  | beforeWait env => exact nomatch h
  | reply src msg =>
      have h' : (epollHandlePaxosNodeFdIo ctx src msg).2 = some rep := h
      refine ⟨src, msg, rfl, ?_⟩
      rcases nodeFdIo_cases ctx src msg with ⟨h4, -, hr⟩ | ⟨-, -, hr⟩ | ⟨-, -, hr⟩
      · rw [hr] at h'
        exact ⟨h4, (countSuccess_spec ctx).report rep h'⟩
      · rw [hr] at h'
        exact nomatch h'
      · rw [hr] at h'
        exact nomatch h'

/-- What the acceptances that `i` has counted in this round stand for, and the reports
    of `i`. -/
structure Accepted (N : Nat) (s : Cluster) (i : Nat) : Prop where
  round : Round (s.host i).ctx (s.host i).sent
  counted : ∀ j ∈ (s.host i).counted, j < N ∧
    Act.accept i (s.host i).ctx.tTry (s.host i).ctx.valueTry.bytes ∈ (s.host j).acts
  nodup : (s.host i).counted.Nodup
  backed : ∀ rep ∈ (s.host i).chosen, N / 2 < (accepters N s i rep.ballot rep.value).card

/-- An acceptance that is counted is of the current ballot and of the value that is
    reported, and is the first one of its peer; and the round is kept. -/
structure AcceptCounts (N : Nat) (s : Cluster) (i : Nat) (e : Event) : Prop where
  keeps : KeepsRound (s.host i).ctx e
  counts : ∀ src msg, e = .reply src msg → (msg.hasPreacceptid && msg.flag == 4) = true →
    src < N ∧ src ∉ (s.host i).counted ∧
    Act.accept i (s.host i).ctx.tTry (s.host i).ctx.valueTry.bytes ∈ (s.host src).acts

theorem mem_countedAfter {counted : List Nat} {e : Event} {j : Nat}
    (h : j ∈ countedAfter counted e) : (j ∈ counted ∧ ∀ str, e ≠ .echo str) ∨
      ∃ msg, e = .reply j msg ∧ (msg.hasPreacceptid && msg.flag == 4) = true := by
  cases e with
  | echo str => exact absurd h List.not_mem_nil
  | recv src msg io => exact Or.inl ⟨h, fun _ h => Event.noConfusion h⟩
  | beforeWait env => exact Or.inl ⟨h, fun _ h => Event.noConfusion h⟩
  | reply src msg =>
      cases h4 : msg.hasPreacceptid && msg.flag == 4 with
      | true =>
          simp only [countedAfter, if_pos h4] at h
          cases List.mem_append.mp h with
          | inl hold => exact Or.inl ⟨hold, fun _ h => Event.noConfusion h⟩
          | inr hnew =>
              rw [List.mem_singleton.mp hnew]
              exact Or.inr ⟨msg, rfl, h4⟩
      | false =>
          simp only [countedAfter, h4, if_neg Bool.false_ne_true] at h
          exact Or.inl ⟨h, fun _ h => Event.noConfusion h⟩

/-- An acceptor is a peer of the proposer, and accepts what was proposed. -/
theorem Base.accepted {N : Nat} {s : Cluster} (h : Base N s) {i j b : Nat} {v : Value}
    (hj : j < N) (hact : Act.accept i b v ∈ (s.host j).acts) :
    i < N ∧ j ≠ i ∧ Offered (s.host i).ctx (s.host i).sent b v := by
  obtain ⟨hi, p, hp, hdst, hflag, hid, hval⟩ := h.wire.accepts j hj i b v hact
  have hpeer := (h.node i hi).sent p hp
  rw [hdst] at hpeer
  exact ⟨hi, (mem_peers.mp hpeer).2, Or.inl ⟨p, hp, hflag, hid, hval⟩⟩

theorem Accepted.other {N : Nat} {s : Cluster} {i k : Nat} (hk : k ≠ i) (h : Accepted N s k)
    (e : Event) : Accepted N (s.act i e) k := by
  have hsame := act_host_ne s i e hk
  have hsub := act_acts_subset s i e
  refine ⟨?_, ?_, ?_, ?_⟩
  · rw [hsame]
    exact h.round
  · rw [hsame]
    intro j hj
    obtain ⟨hlt, hact⟩ := h.counted j hj
    exact ⟨hlt, hsub j hact⟩
  · rw [hsame]
    exact h.nodup
  · rw [hsame]
    intro rep hrep
    exact (h.backed rep hrep).trans_le (actors_mono hsub k _)

/-- The acceptances counted so far and the one of this step make a majority, if the
    counter says so. -/
theorem Accepted.majority {N : Nat} {s : Cluster} (hb : Base N s) {i : Nat} (hi : i < N)
    (h : Accepted N s i) {src : Nat} {msg : Msg} (he : AcceptCounts N s i (.reply src msg))
    (h4 : (msg.hasPreacceptid && msg.flag == 4) = true)
    (hlt : (s.host i).ctx.nNodes / 2 < (s.host i).ctx.nProposeSuccess + 1) :
    N / 2 < (accepters N s i (s.host i).ctx.tTry (s.host i).ctx.valueTry.bytes).card := by
  obtain ⟨hsrc, hnew, hact⟩ := he.counts src msg rfl h4
  have hnd : (src :: (s.host i).counted).Nodup := List.nodup_cons.mpr ⟨hnew, h.nodup⟩
  refine lt_of_lt_of_le ?_ (length_le_actors hnd ?_)
  · rw [(hb.node i hi).nNodes, ← (hb.node i hi).counted_length] at hlt
    exact hlt
  · rintro j (_ | ⟨_, hold⟩)
    · exact ⟨mem_peers.mpr ⟨hsrc, (hb.accepted hsrc hact).2.1⟩, hact⟩
    · obtain ⟨hlt, hact⟩ := h.counted j hold
      exact ⟨mem_peers.mpr ⟨hlt, (hb.accepted hlt hact).2.1⟩, hact⟩

theorem Accepted.self {N : Nat} {s : Cluster} (hb : Base N s) {i : Nat} (hi : i < N)
    (h : Accepted N s i) {e : Event} (he : AcceptCounts N s i e) : Accepted N (s.act i e) i := by
  have hsub := act_acts_subset s i e
  -- the acceptances counted after the step are of the ballot and value after the step
  have hcounted : ∀ j ∈ countedAfter (s.host i).counted e, j < N ∧
      Act.accept i (nodeStep (s.host i).ctx e).ctx.tTry
        (nodeStep (s.host i).ctx e).ctx.valueTry.bytes ∈ (s.host j).acts := by
    have hkeep : ∀ j, (∀ str, e ≠ .echo str) → j < N →
        Act.accept i (s.host i).ctx.tTry (s.host i).ctx.valueTry.bytes ∈ (s.host j).acts →
        Act.accept i (nodeStep (s.host i).ctx e).ctx.tTry
          (nodeStep (s.host i).ctx e).ctx.valueTry.bytes ∈ (s.host j).acts := by
      intro j hecho hlt hact
      obtain ⟨-, -, hoff⟩ := hb.accepted hlt hact
      rw [nodeStep_tTry _ hecho, h.round.value_stays he.keeps hecho hoff]
      exact hact
    intro j hj
    rcases mem_countedAfter hj with ⟨hold, hecho⟩ | ⟨msg, rfl, h4⟩
    · obtain ⟨hlt, hact⟩ := h.counted j hold
      exact ⟨hlt, hkeep j hecho hlt hact⟩
    · obtain ⟨hlt, -, hact⟩ := he.counts j msg rfl h4
      exact ⟨hlt, hkeep j (fun _ h => nomatch h) hlt hact⟩
  have hnd : (countedAfter (s.host i).counted e).Nodup := by
    cases e with
    | echo str => exact List.nodup_nil
    | recv src msg io => exact h.nodup
    | beforeWait env => exact h.nodup
    | reply src msg =>
        cases h4 : msg.hasPreacceptid && msg.flag == 4 with
        | true =>
            simp only [countedAfter, if_pos h4]
            refine List.nodup_append.mpr ⟨h.nodup, List.nodup_singleton _, ?_⟩
            intro j hj j' hj' heq
            rw [heq, List.mem_singleton.mp hj'] at hj
            exact (he.counts src msg rfl h4).2.1 hj
        | false =>
            simp only [countedAfter, h4, if_neg Bool.false_ne_true]
            exact h.nodup
  refine ⟨?_, ?_, ?_, ?_⟩
  · rw [act_host_self]
    exact h.round.step he.keeps
  · rw [act_host_self]
    intro j hj
    obtain ⟨hlt, hact⟩ := hcounted j hj
    exact ⟨hlt, hsub j hact⟩
  · rw [act_host_self]
    exact hnd
  · rw [act_host_self]
    intro rep hrep
    refine lt_of_lt_of_le ?_ (actors_mono hsub i _)
    cases List.mem_append.mp hrep with
    | inl hold => exact h.backed rep hold
    | inr hnew =>
        obtain ⟨src, msg, rfl, h4, hlt, rfl⟩ := nodeStep_report (Option.mem_toList.mp hnew)
        exact h.majority hb hi he h4 hlt

theorem Accepted.take {N : Nat} {s s' : Cluster} {i : Nat} (h : Accepted N s i)
    (hhost : s'.host = s.host) : Accepted N s' i := by
  have hactors : ∀ a, actors N s' i a = actors N s i a := by
    intro a
    unfold actors
    rw [hhost]
  refine ⟨?_, ?_, ?_, ?_⟩
  · rw [hhost]
    exact h.round
  · rw [hhost]
    exact h.counted
  · rw [hhost]
    exact h.nodup
  · rw [hhost]
    intro rep hrep
    rw [accepters, hactors]
    exact h.backed rep hrep

/-- An acceptance that is delivered in time counts.  It is of the current ballot, and
    all proposals of the current ballot carry `value_try`. -/
theorem acceptCounts_of_inTime {N : Nat} {s : Cluster} (hb : Base N s) {p : Packet}
    (hp : p ∈ s.replies) (h : Accepted N s p.dst) (hin : AcceptInTime s (.reply p)) :
    AcceptCounts N { s with replies := s.replies.erase p } p.dst (.reply p.src p.msg) := by
  refine ⟨hin.1, ?_⟩
  rintro src msg heq h4
  obtain ⟨rfl, rfl⟩ := Event.reply.inj heq
  have hflag : p.msg.flag = 4 := by
    simp only [Bool.and_eq_true, beq_iff_eq] at h4
    exact h4.2
  obtain ⟨hid, hnew⟩ := hin.2 hflag
  obtain ⟨hsrc, ⟨h2, -⟩ | ⟨-, v, hact⟩⟩ := hb.wire.replies p hp
  · rw [hflag] at h2
    exact nomatch h2
  · rw [hid] at hact
    obtain ⟨-, -, hoff⟩ := hb.accepted hsrc hact
    obtain ⟨-, rfl⟩ := h.round.now v hoff
    exact ⟨hsrc, hnew, hact⟩

/-- What holds in a run whose acceptances are in time. -/
structure AcceptQuorum (N : Nat) (s : Cluster) : Prop where
  base : Base N s
  accepted : ∀ i, i < N → Accepted N s i

theorem AcceptQuorum.act {N : Nat} {s : Cluster} (h : AcceptQuorum N s) {i : Nat} (hi : i < N)
    {e : Event} (hsrc : Sourced N s i e) (he : AcceptCounts N s i e) :
    AcceptQuorum N (s.act i e) := by
  refine ⟨h.base.act hi hsrc, ?_⟩
  intro k hk
  by_cases hki : k = i
  · rw [hki]
    exact (h.accepted i hi).self h.base hi he
  · exact (h.accepted k hk).other hki e

theorem AcceptQuorum.take {N : Nat} {s s' : Cluster} (h : AcceptQuorum N s)
    (ht : Taken s s') : AcceptQuorum N s' :=
  ⟨h.base.take ht, fun i hi => (h.accepted i hi).take ht.host⟩

theorem AcceptQuorum.counts {N : Nat} {s s₀ : Cluster} {l : Label} {i : Nat} {e : Event}
    (h : AcceptQuorum N s) (hok : AcceptInTime s l) (hcause : Causes s l s₀ i e) :
    AcceptCounts N s₀ i e := by
  cases hcause with
  | echo => exact ⟨hok, fun _ _ heq => nomatch heq⟩
  | recv => exact ⟨trivial, fun _ _ heq => nomatch heq⟩
  | reply p hp =>
      exact acceptCounts_of_inTime h.base hp (h.accepted _ (h.base.reply_dst hp)) hok
  | beforeWait => exact ⟨trivial, fun _ _ heq => nomatch heq⟩

theorem AcceptQuorum.step {N : Nat} {s s' : Cluster} {l : Label} (h : AcceptQuorum N s)
    (hok : AcceptInTime s l) (hstep : clusterStep N s l = some s') : AcceptQuorum N s' := by
  obtain ⟨s₀, i, e, hcause, hi, hsrc, rfl⟩ := h.base.step_cases hstep
  exact (h.take hcause.taken).act hi hsrc (h.counts hok hcause)

theorem acceptQuorum_init (N : Nat) : AcceptQuorum N (clusterInit N) :=
  ⟨base_init N, fun i _ => ⟨round_init i (peers N i), (fun _ hj => nomatch hj), List.nodup_nil,
    fun _ hrep => nomatch hrep⟩⟩

/-- **Accept quorum**: in every run in which each acceptance is delivered while its
    proposer is still at its ballot, and once per peer and ballot, and the rounds are
    kept, more than half of the nodes, all of them peers of the proposer, have accepted
    every reported value in the ballot it was reported for. -/
theorem accept_quorum (N : Nat) (ls : List Label) (s : Cluster)
    (hrun : clusterRun N (clusterInit N) ls = some s)
    (hok : AllSteps N AcceptInTime (clusterInit N) ls) :
    ∀ i, i < N → ∀ rep ∈ (s.host i).chosen,
      (s.host i).ctx.nNodes / 2 < (accepters N s i rep.ballot rep.value).card := by
  have h : AcceptQuorum N s := clusterRun_invariant (fun _ _ _ hI hok hs => hI.step hok hs)
    (acceptQuorum_init N) hok hrun
  intro i hi rep hrep
  rw [(h.base.node i hi).nNodes]
  exact (h.accepted i hi).backed rep hrep

instance (s : Cluster) : ∀ l : Label, Decidable (AcceptInTime s l)
  | .echo _ _ => inferInstanceAs (Decidable (_ < _))
  | .reply _ => inferInstanceAs (Decidable (_ ∧ (_ → _ ∧ _)))
  | .recv _ _ => inferInstanceAs (Decidable True)
  | .beforeWait _ _ => inferInstanceAs (Decidable True)

/-- The proposal of `i` in the ballot `b` reaches the peers `js`. -/
def proposedBy (i : Nat) (js : List Nat) (b : Nat) (v : Value) : List Label :=
  js.map fun j => .recv (requestFrom i j 3 b v) .sent

/-- The acceptances of the ballot `b` reach `i`. -/
def acceptedTo (i : Nat) (js : List Nat) (b : Nat) (v : Value) : List Label :=
  js.map fun j => .reply (replyFrom j i 4 b b v)

theorem accept_quorum_three : ∃ s, clusterRun 3 (clusterInit 3) (preparedBy 0 [1, 2] 1 [97]
      ++ promisedTo 0 [1, 2] 1 0 [] ++ proposedBy 0 [1, 2] 1 [97]
      ++ acceptedTo 0 [1, 2] 1 [97]) = some s ∧
    (s.host 0).chosen = [⟨1, 1, [97]⟩] ∧
    ∀ i, i < 3 → ∀ rep ∈ (s.host i).chosen,
      (s.host i).ctx.nNodes / 2 < (accepters 3 s i rep.ballot rep.value).card :=
  ⟨_, rfl, by decide, accept_quorum 3 (preparedBy 0 [1, 2] 1 [97] ++ promisedTo 0 [1, 2] 1 0 []
    ++ proposedBy 0 [1, 2] 1 [97] ++ acceptedTo 0 [1, 2] 1 [97]) _ rfl (by decide)⟩

/-- The client asks for the value 98 before the acceptances of ballot 1 come back:
    ballot 2 and 98 are reported, and nobody has accepted either. -/
theorem accept_quorum_fails : ∃ s, clusterRun 3 (clusterInit 3) (preparedBy 0 [1, 2] 1 [97]
      ++ promisedTo 0 [1, 2] 1 0 [] ++ proposedBy 0 [1, 2] 1 [97] ++ [.echo 0 [98]]
      ++ acceptedTo 0 [1, 2] 1 [97]) = some s ∧
    (s.host 0).chosen = [⟨1, 2, [98]⟩] ∧
    ¬ (s.host 0).ctx.nNodes / 2 < (accepters 3 s 0 2 [98]).card :=
  ⟨_, rfl, by decide, by decide⟩

end Paxos
