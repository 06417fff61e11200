import Efis.Consensus.Cluster
import Efis.Consensus.Persist

/-!
# What a step does

A step of a cluster is one node handling one message (`Cluster.step_handle`), or the crash and the
restart of one node.  Whatever is said of all the nodes is proved from what becomes of one of them,
`Cluster.Moves`, and whatever is said of the calls under way from what becomes of these,
`Cluster.Mail`.  Only here are the labels gone through for that.
-/

set_option autoImplicit false

namespace Efis

open Consensus

variable {n : ℕ} {σ C : Type} [Storage σ C]

/-! ## Steps of a cluster are steps of a node -/

/-- The node that takes the step, and what it is asked to do. -/
def Cluster.ask (c : Cluster n σ C) : Label n σ C → Option (Fin n × Op C)
  | .startElection i elapsed => some (i, .startElection elapsed)
  | .submit i cmd => some (i, .submit cmd)
  | .sendAes i => some (i, .sendAes)
  | .sendCommit i => some (i, .sendCommit)
  | .voteReq k => c.voteReqs[k]?.map fun m ↦ (m.dst, .requestVote m.req)
  | .voteReply k =>
    c.voteReplies[k]?.map fun m ↦ (m.call.src, .voteResult m.reply.term m.reply.voted)
  | .appendReq k => c.appendReqs[k]?.map fun m ↦ (m.call.client, .appendEntries m.call.req)
  | .appendReply k => c.appendReplies[k]?.map fun m ↦
    (m.call.src, .aeRes m.call.call.peerId m.call.call.ni m.reply)
  | .restart _ _ | .crashVote _ _ | .crashAppend _ _ => none

/-- Node `i` has done what it was asked to, or panicked over it. -/
inductive Cluster.Does (c c' : Cluster n σ C) (i : Fin n) (op : Op C) : Prop where
  | done (m : Consensus σ C (Fin n)) (h : (c.nodes i).handle op = some m)
      (nodes : c'.nodes = Function.update c.nodes i m) (panicked : c'.panicked = c.panicked)
  | panic (h : (c.nodes i).handle op = none) (nodes : c'.nodes = c.nodes)
      (panicked : c'.panicked = Function.update c.panicked i true)

/-- **A step that is no crash is one node handling one message.** -/
theorem Cluster.step_handle {c c' : Cluster n σ C} {l : Label n σ C} (hl : l.Alive)
    (hs : c.step l = some c') :
    ∃ i op, c.ask l = some (i, op) ∧ c.panicked i = false ∧ c.Does c' i op := by
  cases l with
  | startElection i elapsed =>
    simp only [Cluster.step, Cluster.on_eq_some] at hs
    obtain ⟨hp, rfl⟩ := hs
    refine ⟨i, _, rfl, hp, ?_⟩
    rw [Cluster.startElection]
    split
    · rename_i h
      exact .panic (by rw [handle, h]; rfl) rfl rfl
    · rename_i m reqs h
      exact .done m (by rw [handle, h]; rfl) rfl rfl
  | submit i cmd =>
    simp only [Cluster.step, Cluster.on_eq_some] at hs
    obtain ⟨hp, rfl⟩ := hs
    exact ⟨i, _, rfl, hp, .done _ rfl rfl rfl⟩
  | sendAes i =>
    simp only [Cluster.step, Cluster.on_eq_some] at hs
    obtain ⟨hp, rfl⟩ := hs
    refine ⟨i, _, rfl, hp, ?_⟩
    rw [Cluster.sendAes]
    split
    · rename_i h
      exact .panic (by rw [handle, h]; rfl) rfl rfl
    · rename_i m calls h
      exact .done m (by rw [handle, h]; rfl) rfl rfl
  | sendCommit i =>
    simp only [Cluster.step, Cluster.on_eq_some] at hs
    obtain ⟨hp, rfl⟩ := hs
    refine ⟨i, _, rfl, hp, ?_⟩
    rw [Cluster.sendCommit]
    split
    · rename_i h
      exact .panic (by rw [handle, h]; rfl) rfl rfl
    · rename_i m entries h
      exact .done m (by rw [handle, h]; rfl) rfl rfl
  | voteReq k =>
    simp only [Cluster.step, Option.bind_eq_bind, Option.bind_eq_some_iff, Cluster.on_eq_some] at hs
    obtain ⟨m, hm, hp, rfl⟩ := hs
    exact ⟨m.dst, .requestVote m.req, by rw [ask, hm]; rfl, hp, .done _ rfl rfl rfl⟩
  | voteReply k =>
    simp only [Cluster.step, Option.bind_eq_bind, Option.bind_eq_some_iff, Cluster.on_eq_some] at hs
    obtain ⟨m, hm, hp, rfl⟩ := hs
    exact ⟨m.call.src, .voteResult m.reply.term m.reply.voted, by rw [ask, hm]; rfl, hp,
      .done _ rfl rfl rfl⟩
  | appendReq k =>
    simp only [Cluster.step, Option.bind_eq_bind, Option.bind_eq_some_iff, Cluster.on_eq_some] at hs
    obtain ⟨m, hm, hp, rfl⟩ := hs
    refine ⟨m.call.client, .appendEntries m.call.req, by rw [ask, hm]; rfl, hp, ?_⟩
    rw [Cluster.appendEntries]
    simp only
    split
    · exact .done _ rfl rfl rfl
    · exact .done _ rfl rfl rfl
  | appendReply k =>
    simp only [Cluster.step, Option.bind_eq_bind, Option.bind_eq_some_iff, Cluster.on_eq_some] at hs
    obtain ⟨m, hm, hp, rfl⟩ := hs
    refine ⟨m.call.src, .aeRes m.call.call.peerId m.call.call.ni m.reply, by rw [ask, hm]; rfl, hp,
      ?_⟩
    rw [Cluster.aeRes]
    simp only
    split
    · rename_i h
      exact .panic h rfl rfl
    · rename_i node h
      exact .done node h rfl rfl
  | restart i left => exact hl.elim
  | crashVote k left => exact hl.elim
  | crashAppend k left => exact hl.elim

/-- What holds of all the nodes before and after a step, if the one that takes it keeps it. -/
theorem Cluster.Does.forall {c c' : Cluster n σ C} {i : Fin n} {op : Op C}
    {R : Consensus σ C (Fin n) → Consensus σ C (Fin n) → Prop} (hrfl : ∀ m, R m m)
    (h : c.Does c' i op) (hstep : ∀ m, (c.nodes i).handle op = some m → R (c.nodes i) m)
    (v : Fin n) : R (c.nodes v) (c'.nodes v) := by
  cases h with
  | panic _ hn _ =>
    rw [hn]
    exact hrfl _
  | done m hm hn _ =>
    rw [hn]
    by_cases hv : v = i
    · rw [hv, Function.update_self]
      exact hstep m hm
    · rw [Function.update_of_ne hv]
      exact hrfl _

omit [Storage σ C] in
/-- The only step that asks a node to append entries is the delivery of a call. -/
theorem Cluster.ask_appendEntries {c : Cluster n σ C} {l : Label n σ C} {i : Fin n}
    {req : AppendEntries C} (h : c.ask l = some (i, .appendEntries req)) :
    ∃ k m, l = .appendReq k ∧ c.appendReqs[k]? = some m ∧ i = m.call.client ∧
      req = m.call.req := by
  cases l with
  | appendReq k =>
    obtain ⟨m, hm, hpair⟩ := Option.map_eq_some_iff.mp h
    obtain ⟨rfl, hreq⟩ := Prod.mk.inj hpair
    exact ⟨k, m, rfl, hm, rfl, (Op.appendEntries.inj hreq).symm⟩
  | voteReq k =>
    obtain ⟨m, -, hpair⟩ := Option.map_eq_some_iff.mp h
    exact absurd (Prod.mk.inj hpair).2 nofun
  | voteReply k =>
    obtain ⟨m, -, hpair⟩ := Option.map_eq_some_iff.mp h
    exact absurd (Prod.mk.inj hpair).2 nofun
  | appendReply k =>
    obtain ⟨m, -, hpair⟩ := Option.map_eq_some_iff.mp h
    exact absurd (Prod.mk.inj hpair).2 nofun
  | _ => cases h

omit [Storage σ C] in
/-- The only step that hands a node the reply to a request is the delivery of one. -/
theorem Cluster.ask_aeRes {c : Cluster n σ C} {l : Label n σ C} {i : Fin n} {peerId ni : ℕ}
    {reply : AppendEntriesReply} (h : c.ask l = some (i, .aeRes peerId ni reply)) :
    ∃ k b, l = .appendReply k ∧ c.appendReplies[k]? = some b ∧ i = b.call.src ∧
      peerId = b.call.call.peerId ∧ ni = b.call.call.ni ∧ reply = b.reply := by
  cases l with
  | appendReply k =>
    obtain ⟨b, hb, hpair⟩ := Option.map_eq_some_iff.mp h
    obtain ⟨rfl, hop⟩ := Prod.mk.inj hpair
    obtain ⟨rfl, rfl, rfl⟩ := Op.aeRes.inj hop
    exact ⟨k, b, rfl, hb, rfl, rfl, rfl, rfl⟩
  | voteReq k =>
    obtain ⟨m, -, hpair⟩ := Option.map_eq_some_iff.mp h
    exact absurd (Prod.mk.inj hpair).2 nofun
  | voteReply k =>
    obtain ⟨m, -, hpair⟩ := Option.map_eq_some_iff.mp h
    exact absurd (Prod.mk.inj hpair).2 nofun
  | appendReq k =>
    obtain ⟨m, -, hpair⟩ := Option.map_eq_some_iff.mp h
    exact absurd (Prod.mk.inj hpair).2 nofun
  | _ => cases h

/-! ## What becomes of one node -/

/-- The step does not restart node `v`. -/
def Label.Spares (c : Cluster n σ C) (v : Fin n) : Label n σ C → Prop
  | .restart i _ => i ≠ v
  | .crashVote k _ => ∀ m, c.voteReqs[k]? = some m → m.dst ≠ v
  | .crashAppend k _ => ∀ m, c.appendReqs[k]? = some m → m.call.client ≠ v
  | _ => True

/-- Node `v` is left alone, handles a message, or starts again. -/
inductive Cluster.Moves (c c' : Cluster n σ C) (l : Label n σ C) (v : Fin n) : Prop where
  | still (h : c'.nodes v = c.nodes v)
  | handled (op : Op C) (ask : c.ask l = some (v, op))
      (h : (c.nodes v).handle op = some (c'.nodes v))
  | rebooted (t : ℕ) (left : σ) (hleft : metaOf left = metaOf ((c.nodes v).stepDown t).storage)
      (h : c'.nodes v = ((c.nodes v).stepDown t).reboot left) (hit : ¬ l.Spares c v)

variable {c c' : Cluster n σ C}

/-- A node that crashed is the only one that changes. -/
theorem Cluster.Moves.of_reboot {i : Fin n} (t : ℕ) (left : σ) {l : Label n σ C}
    (hleft : metaOf left = metaOf ((c.nodes i).stepDown t).storage) (hit : ¬ l.Spares c i)
    (hn : c'.nodes = (c.set i (((c.nodes i).stepDown t).reboot left)).nodes) (v : Fin n) :
    c.Moves c' l v := by
  by_cases hv : v = i
  · subst hv
    exact .rebooted t left hleft (by rw [hn, Cluster.set_self]) hit
  · exact .still (by rw [hn, Cluster.set_of_ne _ _ hv])

theorem Cluster.step_moves {l : Label n σ C} (hs : c.step l = some c') (v : Fin n) :
    c.Moves c' l v := by
  by_cases hl : l.Alive
  · obtain ⟨i, op, hask, -, hdoes⟩ := Cluster.step_handle hl hs
    cases hdoes with
    | panic _ hn _ => exact .still (by rw [hn])
    | done m hm hn _ =>
      by_cases hv : v = i
      · subst hv
        exact .handled op hask (by rw [hn, Function.update_self, hm])
      · exact .still (by rw [hn, Function.update_of_ne hv])
  · cases l with
    | restart i left =>
      obtain ⟨hleft, rfl⟩ := Cluster.step_restart hs
      have hit : ¬ (Label.restart i left).Spares c i := fun h ↦ h rfl
      refine .of_reboot 0 left hleft hit ?_ v
      rfl
    | crashVote k left =>
      obtain ⟨m, hm, hleft, rfl⟩ := Cluster.step_crashVote hs
      have hit : ¬ (Label.crashVote k left).Spares c m.dst := fun h ↦ h m hm rfl
      refine .of_reboot m.req.term left hleft hit ?_ v
      rfl
    | crashAppend k left =>
      obtain ⟨m, hm, hleft, rfl⟩ := Cluster.step_crashAppend hs
      have hit : ¬ (Label.crashAppend k left).Spares c m.call.client := fun h ↦ h m hm rfl
      refine .of_reboot m.call.req.term left hleft hit ?_ v
      rfl
    | _ => exact absurd trivial hl

/-! ## What becomes of the calls under way -/

/-- What a step does to the `append_entries` calls and the replies to them: nothing, or a leader
sends some calls, or one of them is lost or answered, or the sender reads a reply. -/
inductive Cluster.Mail (c c' : Cluster n σ C) : Prop where
  | same (reqs : c'.appendReqs = c.appendReqs) (replies : c'.appendReplies = c.appendReplies)
  | sent (i : Fin n) (m : Consensus σ C (Fin n)) (calls : List (AppendCall C (Fin n)))
      (hm : (c.nodes i).sendLeaderAes = some (m, calls))
      (nodes : c'.nodes = Function.update c.nodes i m)
      (reqs : c'.appendReqs = c.appendReqs ++ calls.map fun a ↦ ⟨i, a⟩)
      (replies : c'.appendReplies = c.appendReplies)
  | lost (k : ℕ) (reqs : c'.appendReqs = c.appendReqs.eraseIdx k)
      (replies : c'.appendReplies = c.appendReplies)
  | answered (k : ℕ) (m : EntriesCall n C) (reply : AppendEntriesReply)
      (hm : c.appendReqs[k]? = some m)
      (hreply : ((c.nodes m.call.client).appendEntries m.call.req).2 = .ok reply)
      (reqs : c'.appendReqs = c.appendReqs.eraseIdx k)
      (replies : c'.appendReplies = c.appendReplies ++ [⟨m, reply⟩])
      (trace : reply.success = true → .accept m.call.client reply.term m.call.req ∈ c'.trace)
  | read (k : ℕ) (reqs : c'.appendReqs = c.appendReqs)
      (replies : c'.appendReplies = c.appendReplies.eraseIdx k)

theorem Cluster.step_mail {l : Label n σ C} (hs : c.step l = some c') : c.Mail c' := by
  cases l with
  | startElection i elapsed =>
    simp only [Cluster.step, Cluster.on_eq_some] at hs
    obtain ⟨-, rfl⟩ := hs
    rw [Cluster.startElection]
    split <;> exact .same rfl rfl
  | submit i cmd =>
    simp only [Cluster.step, Cluster.on_eq_some] at hs
    obtain ⟨-, rfl⟩ := hs
    exact .same rfl rfl
  | sendAes i =>
    simp only [Cluster.step, Cluster.on_eq_some] at hs
    obtain ⟨-, rfl⟩ := hs
    rw [Cluster.sendAes]
    split
    · exact .same rfl rfl
    · rename_i m calls hm
      exact .sent i m calls hm rfl rfl rfl
  | sendCommit i =>
    simp only [Cluster.step, Cluster.on_eq_some] at hs
    obtain ⟨-, rfl⟩ := hs
    rw [Cluster.sendCommit]
    split <;> exact .same rfl rfl
  | voteReq k =>
    obtain ⟨m, -, rfl⟩ := Cluster.step_voteReq hs
    exact .same rfl rfl
  | voteReply k =>
    obtain ⟨m, -, rfl⟩ := Cluster.step_voteReply hs
    exact .same rfl rfl
  | appendReq k =>
    obtain ⟨m, hm, rfl⟩ := Cluster.step_appendReq hs
    rw [Cluster.appendEntries]
    simp only
    split
    · exact .lost k rfl rfl
    · rename_i reply hreply
      refine .answered k m reply hm hreply rfl rfl fun hsucc ↦ ?_
      simp only [if_pos hsucc]
      exact List.mem_append_right _ (List.mem_singleton_self _)
  | appendReply k =>
    obtain ⟨m, -, rfl⟩ := Cluster.step_appendReply hs
    rw [Cluster.aeRes]
    simp only
    split <;> exact .read k rfl rfl
  | restart i left =>
    obtain ⟨-, rfl⟩ := Cluster.step_restart hs
    exact .same rfl rfl
  | crashVote k left =>
    obtain ⟨m, -, -, rfl⟩ := Cluster.step_crashVote hs
    exact .same rfl rfl
  | crashAppend k left =>
    obtain ⟨m, -, -, rfl⟩ := Cluster.step_crashAppend hs
    exact .lost k rfl rfl

/-- The calls that are under way, answered or not. -/
def Cluster.calls (c : Cluster n σ C) : List (EntriesCall n C) :=
  c.appendReqs ++ c.appendReplies.map (·.call)

omit [Storage σ C] in
theorem Cluster.mem_calls_of_req {a : EntriesCall n C} (h : a ∈ c.appendReqs) : a ∈ c.calls :=
  List.mem_append_left _ h

omit [Storage σ C] in
theorem Cluster.mem_calls_of_reply {b : EntriesAnswer n C} (h : b ∈ c.appendReplies) :
    b.call ∈ c.calls :=
  List.mem_append_right _ (List.mem_map_of_mem h)

/-- What has been recorded stays. -/
theorem Cluster.step_trace {l : Label n σ C} (hs : c.step l = some c') : c.trace <+: c'.trace := by
  cases l with
  | restart i left =>
    obtain ⟨-, rfl⟩ := Cluster.step_restart hs
    exact List.prefix_rfl
  | crashVote k left =>
    obtain ⟨m, -, -, rfl⟩ := Cluster.step_crashVote hs
    exact List.prefix_rfl
  | crashAppend k left =>
    obtain ⟨m, -, -, rfl⟩ := Cluster.step_crashAppend hs
    exact List.prefix_rfl
  | submit i cmd =>
    obtain ⟨-, rfl⟩ := Cluster.on_eq_some.mp hs
    exact List.prefix_rfl
  | startElection i elapsed =>
    obtain ⟨-, rfl⟩ := Cluster.on_eq_some.mp hs
    rw [Cluster.startElection]
    split <;> exact List.prefix_rfl
  | sendAes i =>
    obtain ⟨-, rfl⟩ := Cluster.on_eq_some.mp hs
    rw [Cluster.sendAes]
    split <;> exact List.prefix_rfl
  | sendCommit i =>
    obtain ⟨-, rfl⟩ := Cluster.on_eq_some.mp hs
    rw [Cluster.sendCommit]
    split
    · exact List.prefix_rfl
    · exact List.prefix_append _ _
  | voteReq k =>
    obtain ⟨m, -, rfl⟩ := Cluster.step_voteReq hs
    exact List.prefix_rfl
  | voteReply k =>
    obtain ⟨m, -, rfl⟩ := Cluster.step_voteReply hs
    exact List.prefix_rfl
  | appendReq k =>
    obtain ⟨m, -, rfl⟩ := Cluster.step_appendReq hs
    rw [Cluster.appendEntries]
    dsimp only
    split
    · exact List.prefix_rfl
    · dsimp only
      split
      · exact List.prefix_append _ _
      · exact List.prefix_rfl
  | appendReply k =>
    obtain ⟨m, -, rfl⟩ := Cluster.step_appendReply hs
    rw [Cluster.aeRes]
    split <;> exact List.prefix_rfl

/-- A reply that is under way was so before the step, or is given in it. -/
theorem Cluster.step_appendReplies {l : Label n σ C} (hs : c.step l = some c') :
    ∀ b ∈ c'.appendReplies, b ∈ c.appendReplies ∨ ∃ k : ℕ, c.appendReqs[k]? = some b.call ∧
      ((c.nodes b.call.call.client).appendEntries b.call.call.req).2 = .ok b.reply := by
  intro b hb
  cases Cluster.step_mail hs with
  | same _ hreplies => exact Or.inl (hreplies ▸ hb)
  | sent i m calls _ _ _ hreplies => exact Or.inl (hreplies ▸ hb)
  | lost k _ hreplies => exact Or.inl (hreplies ▸ hb)
  | read k _ hreplies =>
    rw [hreplies] at hb
    exact Or.inl (List.mem_of_mem_eraseIdx hb)
  | answered k m reply hm hreply _ hreplies _ =>
    rw [hreplies] at hb
    rcases List.mem_append.mp hb with hb | hb
    · exact Or.inl hb
    · rw [List.mem_singleton.mp hb]
      exact Or.inr ⟨k, hm, hreply⟩

/-- A success that is under way was so before the step, or its request is accepted in it. -/
theorem Cluster.step_accepts {l : Label n σ C} (hs : c.step l = some c') :
    ∀ b ∈ c'.appendReplies, b.reply.success = true → b ∈ c.appendReplies ∨
      .accept b.call.call.client b.reply.term b.call.call.req ∈ c'.trace := by
  intro b hb hsucc
  cases Cluster.step_mail hs with
  | same _ hreplies => exact Or.inl (hreplies ▸ hb)
  | sent i m calls _ _ _ hreplies => exact Or.inl (hreplies ▸ hb)
  | lost k _ hreplies => exact Or.inl (hreplies ▸ hb)
  | read k _ hreplies =>
    rw [hreplies] at hb
    exact Or.inl (List.mem_of_mem_eraseIdx hb)
  | answered k m reply _ _ _ hreplies htrace =>
    rw [hreplies] at hb
    rcases List.mem_append.mp hb with hb | hb
    · exact Or.inl hb
    · obtain rfl := List.mem_singleton.mp hb
      exact Or.inr (htrace hsucc)

/-- A call that is under way was so before the step, or a leader sends it in this step. -/
theorem Cluster.step_calls {l : Label n σ C} (hs : c.step l = some c') :
    ∀ a ∈ c'.calls, a ∈ c.calls ∨ ∃ calls,
      (c.nodes a.src).sendLeaderAes = some (c'.nodes a.src, calls) ∧ a.call ∈ calls := by
  intro a ha
  rcases List.mem_append.mp ha with ha | ha
  · cases Cluster.step_mail hs with
    | same hreqs _ => exact Or.inl (Cluster.mem_calls_of_req (hreqs ▸ ha))
    | read k hreqs _ => exact Or.inl (Cluster.mem_calls_of_req (hreqs ▸ ha))
    | lost k hreqs _ =>
      rw [hreqs] at ha
      exact Or.inl (Cluster.mem_calls_of_req (List.mem_of_mem_eraseIdx ha))
    | answered k m reply _ _ hreqs _ _ =>
      rw [hreqs] at ha
      exact Or.inl (Cluster.mem_calls_of_req (List.mem_of_mem_eraseIdx ha))
    | sent i m calls hm hnodes hreqs _ =>
      rw [hreqs] at ha
      rcases List.mem_append.mp ha with ha | ha
      · exact Or.inl (Cluster.mem_calls_of_req ha)
      · obtain ⟨call, hcall, rfl⟩ := List.mem_map.mp ha
        exact Or.inr ⟨calls, by rw [hnodes, Function.update_self]; exact hm, hcall⟩
  · obtain ⟨b, hb, rfl⟩ := List.mem_map.mp ha
    rcases Cluster.step_appendReplies hs b hb with hb | ⟨k, hk, -⟩
    · exact Or.inl (Cluster.mem_calls_of_reply hb)
    · exact Or.inl (Cluster.mem_calls_of_req (List.mem_of_getElem? hk))

end Efis
