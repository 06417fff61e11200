import Efis.Consensus.Commit
import Efis.Consensus.Conflict
import Efis.Consensus.Mailbox
import Efis.Consensus.Origin
import Efis.Rpc.Connection
import Efis.Rpc.Framing
import Efis.Rpc.Outcome
import Efis.Server.Methods
import Efis.Server.Service

/-!
# The cluster over the wire

In `Efis.Consensus.Cluster` the nodes hand each other their messages as they are.  Here every
message takes its real way.  `Client::call` writes the name of the method and the serialized request
on a line of its own, the server dispatches the line to the method, whose decoder reads the request,
and the reply comes back as a line in which the client first looks for a redirect and for an error.

Both ends use the same generated codec, and still a message may arrive as another one: what is
inside of a command is text of a client.  If all commands are such that they are read back, then so
are all messages, in every state that the cluster gets to (`Cluster.Sendable`).  So the cluster over
the wire has the same runs as the one in which messages are handed over (`text_run_iff`), and what
has been proved of those holds of it.
-/

set_option autoImplicit false

namespace Efis

open Consensus Rpc Text Bytes

variable {n : ℕ} {σ F P : Type}

/-! ## Texts on one line -/

theorem newline_not_mem_string {s : String} (h : '\n' ∉ s.toList) : '\n' ∉ serialize s := by
  have hescape : '\n' ∉ escape s.toList := by
    intro hmem
    obtain ⟨c, hc, hnew⟩ := List.mem_flatMap.mp hmem
    split at hnew
    · exact absurd hnew (by decide)
    · exact h (List.mem_singleton.mp hnew ▸ hc)
  simp only [serialize]
  split
  · simpa using hescape
  · exact h

theorem newline_not_mem_nat (k : ℕ) : '\n' ∉ serialize k :=
  (plain_toDigits k).1.neutral.newline_not_mem

theorem newline_not_mem_list {α : Type} [Serialize α] {as : List α}
    (h : ∀ a ∈ as, '\n' ∉ serialize a) : '\n' ∉ serialize as := by
  have hjoin : '\n' ∉ [','].intercalate (as.map serialize) := by
    refine intercalate_induction (P := ('\n' ∉ ·)) (by simp) (by simp_all) (by decide)
      fun t ht ↦ ?_
    obtain ⟨a, ha, rfl⟩ := List.mem_map.mp ht
    exact h a ha
  simpa [serialize] using hjoin

/-- A struct is on one line if its fields are. -/
theorem newline_not_mem_struct {fields : List (String × List Char)} (names : List String)
    (hnames : fields.map Prod.fst = names) (hn : ∀ n ∈ names, '\n' ∉ n.toList)
    (h : ∀ f ∈ fields, '\n' ∉ f.2) : '\n' ∉ serializeStruct fields := by
  subst hnames
  exact not_mem_serializeStruct (by decide) hn h

theorem RequestVoteReply.newline_not_mem (r : RequestVoteReply) : '\n' ∉ serialize r := by
  refine newline_not_mem_struct voteFields.names rfl (by decide +kernel) ?_
  simpa [RequestVoteReply.fields] using
    ⟨newline_not_mem_nat r.term, (neutral_bool r.voted).newline_not_mem⟩

theorem AppendEntriesReply.newline_not_mem (r : AppendEntriesReply) : '\n' ∉ serialize r := by
  refine newline_not_mem_struct appendFields.names rfl (by decide +kernel) ?_
  simpa [AppendEntriesReply.fields] using ⟨newline_not_mem_nat r.term,
    (neutral_bool r.success).newline_not_mem, (neutral_optional r.conflictIndex).newline_not_mem,
    (neutral_optional r.conflictTerm).newline_not_mem⟩

/-! ## What can be sent -/

/-- The id of a node that can be sent. -/
structure Nameable (s : String) : Prop where
  field : FieldString s
  passes : kvScanner.Passes 0 (serialize s)
  line : '\n' ∉ s.toList

def RequestVote.fields (r : RequestVote) : List (String × List Char) :=
  [("term", serialize r.term), ("candidate_id", serialize r.candidateId),
    ("last_log_index", serialize r.lastLogIndex), ("last_log_term", serialize r.lastLogTerm)]

instance : Serialize RequestVote where
  serialize r := serializeStruct r.fields

structure RequestVote.Sendable (r : RequestVote) : Prop where
  term : r.term < 2 ^ 64
  candidateId : Nameable r.candidateId
  lastLogIndex : r.lastLogIndex < 2 ^ 64
  lastLogTerm : r.lastLogTerm < 2 ^ 64

theorem RequestVote.Sendable.deserialize_eq {r : RequestVote} (h : r.Sendable) :
    deserialize (serialize r) = Res.ok r := by
  have ht := (decodes_nat h.term).1
  have hi := (decodes_nat h.lastLogIndex).1
  have hl := (decodes_nat h.lastLogTerm).1
  have hid := h.candidateId.field.decodes
  have hnat : ∀ k : ℕ, kvScanner.Passes 0 (serialize k) :=
    fun k ↦ (plain_toDigits k).1.neutral.kvScanner 0
  have htrim : ∀ f ∈ r.fields, trim isWhitespace f.2 = f.2 := by
    simpa [RequestVote.fields] using ⟨ht.trim_eq, hid.trim_eq, hi.trim_eq, hl.trim_eq⟩
  have hpass : ∀ f ∈ r.fields, kvScanner.Passes 0 f.2 := by
    simpa [RequestVote.fields] using
      ⟨hnat r.term, h.candidateId.passes, hnat r.lastLogIndex, hnat r.lastLogTerm⟩
  have hs : Separable r.fields := Separable.of_names
    ["term", "candidate_id", "last_log_index", "last_log_term"] rfl (by decide +kernel) htrim
    (Scanner.separates_of_passes (forall_texts hpass))
  simp only [deserialize, serialize]
  rw [hs.field_eq ht (by simp [RequestVote.fields]), Res.ok_bind,
    hs.field_eq hid (by simp [RequestVote.fields]), Res.ok_bind,
    hs.field_eq hi (by simp [RequestVote.fields]), Res.ok_bind,
    hs.field_eq hl (by simp [RequestVote.fields]), Res.ok_bind]

theorem RequestVote.Sendable.newline_not_mem {r : RequestVote} (h : r.Sendable) :
    '\n' ∉ serialize r := by
  refine newline_not_mem_struct ["term", "candidate_id", "last_log_index", "last_log_term"] rfl
    (by decide +kernel) ?_
  simpa [RequestVote.fields] using ⟨newline_not_mem_nat r.term,
    newline_not_mem_string h.candidateId.line, newline_not_mem_nat r.lastLogIndex,
    newline_not_mem_nat r.lastLogTerm⟩

section

variable [Serialize F]

/-- A command that can be sent. -/
structure Command.Sendable (cmd : Command F) : Prop where
  readable : cmd.Readable
  nested : cmd.Nested
  line : '\n' ∉ serialize cmd

structure LogEntry.Sendable (e : LogEntry (Command F)) : Prop where
  command : e.command.Sendable
  term : e.term < 2 ^ 64

structure AppendEntries.Sendable (req : AppendEntries (Command F)) : Prop where
  usize : req.Usize
  leader : Nameable req.leader
  entries : ∀ e ∈ req.entries, e.Sendable

theorem AppendEntries.Sendable.readable {req : AppendEntries (Command F)} (h : req.Sendable) :
    req.Readable where
  leader := ⟨h.leader.field, h.leader.passes⟩
  entries e he := ⟨(h.entries e he).command.readable, (h.entries e he).command.nested⟩

theorem LogEntry.Sendable.newline_not_mem {e : LogEntry (Command F)} (h : e.Sendable) :
    '\n' ∉ serialize e := by
  refine newline_not_mem_struct ["command", "term"] rfl (by decide) ?_
  simpa [LogEntry.fields] using ⟨h.command.line, newline_not_mem_nat e.term⟩

theorem AppendEntries.Sendable.newline_not_mem {req : AppendEntries (Command F)}
    (h : req.Sendable) : '\n' ∉ serialize req := by
  have hopt : ∀ o : Option ℕ, '\n' ∉ serialize o := fun o ↦ (neutral_optional o).newline_not_mem
  refine newline_not_mem_struct
    ["term", "leader", "prev_log_index", "prev_log_term", "entries", "leader_commit"] rfl
    (by decide +kernel) ?_
  simpa [AppendEntries.fields] using ⟨newline_not_mem_nat req.term,
    newline_not_mem_string h.leader.line, hopt req.prevLogIndex, hopt req.prevLogTerm,
    newline_not_mem_list fun e he ↦ (h.entries e he).newline_not_mem, hopt req.leaderCommit⟩

end

/-! ## There and back -/

/-- What the method is called with, if the line is for it and its decoder reads the request. -/
def Host.receive {ρ : Type} [Deserialize ρ] (p : Host) (m : Method) (line : List Char) : Option ρ :=
  if p.find false (Dispatcher.method line) = some m then
    match (deserialize (Dispatcher.argument line) : Res ρ) with
    | .ok req => some req
    | .err _ | .panic => none
  else none

/-- A request on its way from `Client::call` to the body of the method.  It is `none` if it does not
get there.  The sender then sees an error, or the connection fail, and forgets about the call.  Only
the first line of what is written is followed. -/
def arrive {ρ : Type} [Serialize ρ] [Deserialize ρ] (p : Host) (m : Method) (req : ρ) :
    Option ρ :=
  ((fullLines (wire [Payload.text ⟨m.name.toList, serialize req⟩])).head?.bind decode).bind
    fun t ↦ p.receive m (withoutCarriageReturn t)

/-- A reply on its way back to the end of `Client::call`. -/
def comeBack {ρ : Type} [Serialize ρ] [Deserialize ρ] (reply : ρ) : Option ρ :=
  match Framing.firstLine .silent (wire [serialize reply]) with
  | .ok t =>
    match classify ρ t with
    | some (.ok r) => some r
    | _ => none
  | _ => none

theorem fullLines_wire {t : List Char} (h : '\n' ∉ t) : fullLines (wire [t]) = [encode t] := by
  have hcut : cutLine (wire [t]) = some (encode t, []) := by
    rw [wire_cons, wire_nil]
    exact cutLine_append (fun hmem ↦ h ((newline_mem_encode t).mp hmem)) []
  rw [fullLines_of_cutLine hcut, fullLines_of_not_mem List.not_mem_nil]

theorem Dispatcher.method_text {name t : List Char} (h : ' ' ∉ name)
    (htrim : trim isWhitespace name = name) :
    method (Payload.text ⟨name, t⟩) = name ∧ argument (Payload.text ⟨name, t⟩) = t := by
  have hne : ∀ c ∈ name, decide (c ≠ ' ') = true := fun c hc ↦
    decide_eq_true fun heq ↦ h (heq ▸ hc)
  constructor
  · rw [method, Payload.text, List.takeWhile_append_of_pos hne]
    simpa using htrim
  · rw [argument, Payload.text, List.dropWhile_append_of_pos hne]
    simp

/-- A struct that comes back arrives. -/
theorem arrive_eq {ρ : Type} [Serialize ρ] [Deserialize ρ] {p : Host} {m : Method}
    (hm : p.find false m.name.toList = some m) (hname : Plain m.name.toList) {req : ρ}
    {fields : List (String × List Char)} (hfields : serialize req = serializeStruct fields)
    (hline : '\n' ∉ serialize req) (hreq : deserialize (serialize req) = Res.ok req) :
    arrive p m req = some req := by
  have hnew : '\n' ∉ Payload.text ⟨m.name.toList, serialize req⟩ := by
    rw [Payload.text, List.mem_append, List.mem_cons]
    rintro (hmem | hmem | hmem)
    · exact absurd (hname.2 _ hmem).1 (by decide)
    · exact absurd hmem (by decide)
    · exact hline hmem
  have hspace : ' ' ∉ m.name.toList := fun hmem ↦ absurd (hname.2 _ hmem).1 (by decide)
  have hlast : withoutCarriageReturn (Payload.text ⟨m.name.toList, serialize req⟩) =
      Payload.text ⟨m.name.toList, serialize req⟩ := by
    refine if_neg ?_
    rw [Payload.text, hfields, serializeStruct, ← List.cons_append, ← List.cons_append,
      ← List.append_assoc, List.getLast?_concat]
    decide
  obtain ⟨hmethod, harg⟩ := Dispatcher.method_text (t := serialize req) hspace hname.trim_eq
  rw [arrive, fullLines_wire hnew, List.head?_cons, Option.bind_some, decode_encode,
    Option.bind_some, hlast, Host.receive, hmethod, if_pos hm, harg, hreq]

theorem comeBack_eq {ρ : Type} [Serialize ρ] [Deserialize ρ] {reply : ρ}
    (hline : '\n' ∉ serialize reply)
    (hreply : classify ρ (serialize reply) = some (.ok reply)) : comeBack reply = some reply := by
  have hread : Framing.firstLine .silent (wire [serialize reply]) = .ok (serialize reply) := by
    rw [Framing.firstLine, fullLines_wire hline]
    simp only [List.head?_cons, Framing.text, decode_encode]
  rw [comeBack, hread]
  simp only [hreply]

/-! ## Steps over the wire -/

namespace Cluster

/-- The server that node `i` is behind. -/
def host {C : Type} (c : Cluster n σ C) (i : Fin n) : Host := ⟨true, (c.nodes i).statics⟩

variable [Storage σ (Command F)] [Serialize F] [Deserialize F]

/-- One step, in which the message that is delivered takes its way over the wire. -/
def textStep (c : Cluster n σ (Command F)) :
    Label n σ (Command F) → Option (Cluster n σ (Command F))
  | .voteReq k => do
    let m ← c.voteReqs[k]?
    let rest := { c with voteReqs := c.voteReqs.eraseIdx k }
    match arrive (c.host m.dst) .requestVote m.req with
    | some req => c.on m.dst (rest.requestVote { m with req := req })
    | none => some rest
  | .voteReply k => do
    let m ← c.voteReplies[k]?
    let rest := { c with voteReplies := c.voteReplies.eraseIdx k }
    match comeBack m.reply with
    | some reply => c.on m.call.src (rest.voteResult { m with reply := reply })
    | none => some rest
  | .appendReq k => do
    let m ← c.appendReqs[k]?
    let rest := { c with appendReqs := c.appendReqs.eraseIdx k }
    match arrive (c.host m.call.client) .appendEntries m.call.req with
    | some req =>
      c.on m.call.client (rest.appendEntries { m with call := { m.call with req := req } })
    | none => some rest
  | .appendReply k => do
    let m ← c.appendReplies[k]?
    let rest := { c with appendReplies := c.appendReplies.eraseIdx k }
    match comeBack m.reply with
    | some reply => c.on m.call.src (rest.aeRes { m with reply := reply })
    | none => some rest
  | .crashVote k left => do
    let m ← c.voteReqs[k]?
    let req ← arrive (c.host m.dst) .requestVote m.req
    let c ← c.on m.dst { c with voteReqs := c.voteReqs.eraseIdx k }
    c.reboot m.dst ((c.nodes m.dst).stepDown req.term) left
  | .crashAppend k left => do
    let m ← c.appendReqs[k]?
    let req ← arrive (c.host m.call.client) .appendEntries m.call.req
    let c ← c.on m.call.client { c with appendReqs := c.appendReqs.eraseIdx k }
    c.reboot m.call.client ((c.nodes m.call.client).stepDown req.term) left
  | l => c.step l

/-- The states of a run over the wire, the latest one first. -/
inductive TextRun (cfg : Config n σ (Command F))
    (ok : Cluster n σ (Command F) → Label n σ (Command F) → Prop) :
    List (Cluster n σ (Command F)) → Prop
  | init : TextRun cfg ok [cfg.init]
  | step {c c' : Cluster n σ (Command F)} {r : List (Cluster n σ (Command F))}
      {l : Label n σ (Command F)} (h : TextRun cfg ok (c :: r)) (hok : ok c l)
      (hs : c.textStep l = some c') : TextRun cfg ok (c' :: c :: r)

end Cluster

/-! ## What a node may send -/

section

variable [Serialize F]

/-- What a node puts into its messages can be sent. -/
structure Consensus.Sendable (m : Consensus σ (Command F) P) : Prop where
  id : Nameable m.id
  term : m.currentTerm < 2 ^ 64
  commitIndex : ∀ ci ∈ m.commitIndex, ci < 2 ^ 64
  logs : ∀ e ∈ m.logs, e.Sendable

/-- What a node may take over from a message can be sent. -/
def Op.Sendable : Op (Command F) → Prop
  | .voteResult term _ => term < 2 ^ 64
  | .requestVote req => req.term < 2 ^ 64
  | .appendEntries req => req.Sendable
  | .submit cmd => cmd.Sendable
  | .aeRes _ _ reply => reply.term < 2 ^ 64
  | .startElection _ | .sendAes | .sendCommit => True

end

/-- The term in a message. -/
def Op.term {C : Type} : Op C → Option ℕ
  | .voteResult term _ => some term
  | .requestVote req => some req.term
  | .appendEntries req => some req.term
  | .aeRes _ _ reply => some reply.term
  | .startElection _ | .submit _ | .sendAes | .sendCommit => none

section

variable {C : Type} [Storage σ C] {m m' : Consensus σ C P}

/-- The term of an election is in the range of `usize`. -/
theorem onStartElection_requests {elapsed : Bool} {reqs : List (P × RequestVote)}
    (h : m.onStartElection elapsed = some (m', reqs)) :
    (m' = m ∧ reqs = []) ∨ (m.currentTerm + 1 < 2 ^ 64 ∧ m'.currentTerm = m.currentTerm + 1 ∧
      m'.commitIndex = m.commitIndex ∧ ∀ r ∈ reqs, r.2 = ⟨m.currentTerm + 1, m.id,
        (lastLogOf m.logs).index, (lastLogOf m.logs).term⟩) := by
  rw [onStartElection] at h
  split at h
  · rw [startElection] at h
    split at h
    · rename_i hlt
      obtain ⟨rfl, rfl⟩ := Prod.mk.inj (Option.some_inj.mp h)
      refine Or.inr ⟨by rw [usizeMax] at hlt; omega, rfl, rfl, fun r hr ↦ ?_⟩
      obtain ⟨p, -, rfl⟩ := List.mem_map.mp hr
      rfl
    · cases h
  · obtain ⟨rfl, rfl⟩ := Prod.mk.inj (Option.some_inj.mp h)
    exact Or.inl ⟨rfl, rfl⟩

/-- The term of a node after a message was its own or that of the message, or is that of an
election. -/
theorem handle_term_lt {op : Op C} (h : m.handle op = some m') (hterm : m.currentTerm < 2 ^ 64)
    (hop : ∀ t ∈ op.term, t < 2 ^ 64) : m'.currentTerm < 2 ^ 64 := by
  have hdown : ∀ {t}, t < 2 ^ 64 → (m.stepDown t).currentTerm < 2 ^ 64 := fun {t} ht ↦ by
    rw [stepDown_currentTerm]
    exact max_lt hterm ht
  cases op with
  | startElection elapsed =>
    obtain ⟨⟨c, reqs⟩, hc, rfl⟩ := Option.map_eq_some_iff.mp h
    rcases onStartElection_requests hc with ⟨rfl, -⟩ | ⟨hlt, hc, -, -⟩
    · exact hterm
    · rwa [← hc] at hlt
  | voteResult term voted =>
    obtain rfl := Option.some_inj.mp h
    rcases m.onVoteResult_cases term voted with h | ⟨-, h⟩ | ⟨-, -, -, h⟩ | ⟨-, -, -, -, h⟩
    · rwa [h]
    · rw [h]
      exact hop term rfl
    · rwa [h]
    · rwa [h]
  | requestVote req =>
    obtain rfl := Option.some_inj.mp h
    have hreq := hdown (hop req.term rfl)
    rcases m.requestVote_cases req with h | ⟨-, -, -, h⟩ | h
    · rwa [h]
    · rwa [h]
    · rwa [h]
  | appendEntries req =>
    obtain rfl := Option.some_inj.mp h
    have hreq := hdown (hop req.term rfl)
    rcases m.appendEntries_cases req with h | ⟨c, _, h, -, hs, -⟩ | ⟨c, h, -, -, hs, -⟩
    · rwa [h]
    · rwa [h, hs.currentTerm]
    · rw [h, hs.currentTerm]
      exact hreq
  | submit cmd =>
    obtain rfl := Option.some_inj.mp h
    rcases m.onSubmit_cases cmd with h | ⟨-, hs, -⟩
    · rwa [h]
    · rw [hs.currentTerm]
      exact hterm
  | sendAes =>
    obtain ⟨⟨c, calls⟩, hc, rfl⟩ := Option.map_eq_some_iff.mp h
    rwa [(m.sendLeaderAes_spec hc).1.currentTerm]
  | aeRes peerId ni reply =>
    rcases m.handleAeRes_node h with ⟨-, rfl⟩ | ⟨-, next, mat, ci, rfl⟩
    · exact hop reply.term rfl
    · exact hterm
  | sendCommit =>
    obtain ⟨⟨c, entries⟩, hc, rfl⟩ := Option.map_eq_some_iff.mp h
    rwa [(m.sendCommits_spec hc).1.currentTerm]

/-- A commit index that is new is an index of the log, or not above that of a leader. -/
theorem handle_commitIndex_lt {op : Op C} (h : m.handle op = some m')
    (hlen : m.logs.length < 2 ^ 64) (hcommit : ∀ ci ∈ m.commitIndex, ci < 2 ^ 64)
    (hop : ∀ req, op = .appendEntries req → ∀ lc ∈ req.leaderCommit, lc < 2 ^ 64) :
    ∀ ci ∈ m'.commitIndex, ci < 2 ^ 64 := by
  rcases handle_commitIndex h with hci | ⟨req, rfl⟩ | ⟨peerId, ni, reply, rfl⟩
  · rwa [hci]
  · obtain rfl := Option.some_inj.mp h
    rcases m.appendEntries_cases req with h | ⟨c, _, h, -, -, hci⟩ | ⟨c, h, -, -, -, hci⟩
    · rwa [h]
    · rw [h]
      exact hci ▸ hcommit
    · rw [h]
      intro ci hmem
      rw [hci] at hmem
      rcases followCommit_cases (splice m.logs (insertAt req) req.entries) m.commitIndex
        req.leaderCommit with hf | ⟨lc, hlc, -, -, hf⟩
      · exact hcommit ci (hf ▸ hmem)
      · obtain rfl := Option.some_inj.mp (hf.symm.trans hmem)
        exact (Nat.min_le_left ..).trans_lt (hop req rfl lc hlc)
  · rcases m.handleAeRes_cases h with ⟨-, rfl⟩ | ⟨-, hci⟩ | ⟨-, -, -, -, hci⟩
    · exact hcommit
    · rwa [hci]
    · rcases (m.recordMatch peerId (ni + (m.logs.drop ni).length)).advanceCommit_cases with
        ha | ⟨i, -, hi, -, ha⟩
      · rw [hci, ha]
        exact hcommit
      · intro ci hmem
        obtain rfl := Option.some_inj.mp ((hci.trans ha).symm.trans hmem)
        exact lt_trans hi hlen

end

section

variable [Storage σ (Command F)] [Serialize F] {m m' : Consensus σ (Command F) P}

omit [Storage σ (Command F)] in
theorem Op.Sendable.term_lt {op : Op (Command F)} (h : op.Sendable) :
    ∀ t ∈ op.term, t < 2 ^ 64 := by
  intro t ht
  cases op with
  | voteResult term voted => exact Option.some_inj.mp ht ▸ h
  | requestVote req => exact Option.some_inj.mp ht ▸ h
  | appendEntries req => exact Option.some_inj.mp ht ▸ AppendEntries.Usize.term h.usize
  | aeRes peerId ni reply => exact Option.some_inj.mp ht ▸ h
  | startElection _ => cases ht
  | submit _ => cases ht
  | sendAes => cases ht
  | sendCommit => cases ht

/-- **A node that is told only what can be sent has only what can be sent.** -/
theorem Consensus.Sendable.handle (h : m.Sendable) {op : Op (Command F)} (hop : op.Sendable)
    (hlen : m.logs.length < 2 ^ 64) (hm : m.handle op = some m') : m'.Sendable where
  id := (Twin.handle hm).id ▸ h.id
  term := handle_term_lt hm h.term hop.term_lt
  commitIndex := by
    refine handle_commitIndex_lt hm hlen h.commitIndex fun req hreq ↦ ?_
    subst hreq
    exact AppendEntries.Usize.leaderCommit hop.usize
  logs := by
    cases Writes.handle hm with
    | same hlogs => exact hlogs ▸ h.logs
    | submitted cmd hstate hlogs =>
      rw [hlogs]
      intro e he
      rcases List.mem_append.mp he with he | he
      · exact h.logs e he
      · rw [List.mem_singleton.mp he]
        exact ⟨hop, handle_term_lt hm h.term hop.term_lt⟩
    | spliced req hprev hlogs =>
      rw [hlogs]
      intro e he
      obtain ⟨i, hi⟩ := List.mem_iff_getElem?.mp he
      rcases getElem?_splice hprev hi with hold | ⟨k, -, hnew⟩
      · exact h.logs e (List.mem_of_getElem? hold)
      · exact AppendEntries.Sendable.entries hop e (List.mem_of_getElem? hnew)

omit [Storage σ (Command F)] [Serialize F] in
theorem lastLogOf_index_le {C : Type} (logs : List (LogEntry C)) :
    (lastLogOf logs).index ≤ logs.length := by
  rw [lastLogOf]
  split
  · exact Nat.sub_le ..
  · exact Nat.zero_le _

omit [Storage σ (Command F)] in
theorem Consensus.Sendable.lastTerm_lt (h : m.Sendable) : (lastLogOf m.logs).term < 2 ^ 64 := by
  rw [lastLogOf]
  split
  · rename_i e he
    exact (h.logs e (List.mem_of_getLast? he)).term
  · decide

/-- The requests of an election can be sent. -/
theorem Consensus.Sendable.voteReq (h : m.Sendable) (hlen : m.logs.length < 2 ^ 64) {elapsed : Bool}
    {reqs : List (P × RequestVote)} (hm : m.onStartElection elapsed = some (m', reqs)) :
    ∀ r ∈ reqs, r.2.Sendable := by
  intro r hr
  rcases onStartElection_requests hm with ⟨-, rfl⟩ | ⟨hlt, -, -, hreqs⟩
  · cases hr
  · rw [hreqs r hr]
    exact ⟨hlt, h.id, (lastLogOf_index_le m.logs).trans_lt hlen, h.lastTerm_lt⟩

omit [Storage σ (Command F)] in
theorem prevTerm_lt (h : m.Sendable) {ni : ℕ} {t : Option ℕ} (ht : prevTerm m.logs ni = some t) :
    ∀ k ∈ t, k < 2 ^ 64 := by
  rw [prevTerm] at ht
  split at ht
  · obtain rfl := Option.some_inj.mp ht
    exact fun k hk ↦ absurd hk (Option.not_mem_none k)
  · obtain ⟨e, he, rfl⟩ := Option.map_eq_some_iff.mp ht
    intro k hk
    obtain rfl := Option.some_inj.mp hk
    exact (h.logs e (List.mem_of_getElem? he)).term

omit [Storage σ (Command F)] in
/-- The request that a leader sends to a peer can be sent. -/
theorem Consensus.Sendable.leaderAe (h : m.Sendable) (hlen : m.logs.length < 2 ^ 64) {p : ℕ × P}
    {call : AppendCall (Command F) P} (hm : m.leaderAe p = some (m', call)) :
    call.req.Sendable := by
  obtain ⟨-, -, hsuf, hterm, hid, hci⟩ := m.leaderAe_spec hm
  have hentries : ∀ e ∈ call.req.entries, e.Sendable := fun e he ↦
    h.logs e (List.mem_of_mem_drop (hsuf.entries ▸ he))
  refine ⟨⟨hterm ▸ h.term, fun k hk ↦ ?_, ?_, hci ▸ h.commitIndex, fun e he ↦ (hentries e he).term⟩,
    hid ▸ h.id, hentries⟩
  · have hle := hsuf.le
    rw [← hsuf.insertAt, Consensus.insertAt, show call.req.prevLogIndex = some k from hk] at hle
    exact lt_trans (Nat.lt_of_succ_le hle) hlen
  · simp only [Consensus.leaderAe, Option.bind_eq_bind, Option.bind_eq_some_iff] at hm
    obtain ⟨t, ht, entries, -, hm⟩ := hm
    obtain ⟨-, rfl⟩ := Prod.mk.inj (Option.some_inj.mp hm)
    exact prevTerm_lt h ht

omit [Storage σ (Command F)] in
theorem Consensus.Sendable.of_same (h : m.Sendable) (hs : Same m m')
    (hci : m'.commitIndex = m.commitIndex) : m'.Sendable where
  id := hs.id ▸ h.id
  term := hs.currentTerm ▸ h.term
  commitIndex := hci ▸ h.commitIndex
  logs := hs.logs ▸ h.logs

omit [Storage σ (Command F)] in
theorem Consensus.Sendable.leaderAes {ps : List (ℕ × P)} (h : m.Sendable)
    (hlen : m.logs.length < 2 ^ 64) {calls : List (AppendCall (Command F) P)}
    (hm : m.leaderAes ps = some (m', calls)) : ∀ call ∈ calls, call.req.Sendable := by
  induction ps generalizing m calls with
  | nil =>
    obtain ⟨-, rfl⟩ := Prod.mk.inj (Option.some_inj.mp hm)
    exact fun call hcall ↦ absurd hcall List.not_mem_nil
  | cons p ps ih =>
    simp only [Consensus.leaderAes, Option.bind_eq_bind, Option.bind_eq_some_iff] at hm
    obtain ⟨⟨m₁, call₁⟩, h₁, ⟨m₂, calls₂⟩, h₂, hm⟩ := hm
    obtain ⟨rfl, rfl⟩ := Prod.mk.inj (Option.some_inj.mp hm)
    obtain ⟨hsame, hci, -⟩ := m.leaderAe_spec h₁
    exact List.forall_mem_cons.mpr ⟨h.leaderAe hlen h₁,
      ih (h.of_same hsame hci) (hsame.logs ▸ hlen) h₂⟩

omit [Storage σ (Command F)] in
theorem Consensus.Sendable.sendLeaderAes (h : m.Sendable) (hlen : m.logs.length < 2 ^ 64)
    {calls : List (AppendCall (Command F) P)} (hm : m.sendLeaderAes = some (m', calls)) :
    ∀ call ∈ calls, call.req.Sendable := by
  rw [Consensus.sendLeaderAes] at hm
  split at hm
  · exact h.leaderAes hlen hm
  · obtain ⟨-, rfl⟩ := Prod.mk.inj (Option.some_inj.mp hm)
    exact fun call hcall ↦ absurd hcall List.not_mem_nil

/-- So can the replies. -/
theorem Consensus.Sendable.voteReply (h : m.Sendable) {req : RequestVote} (hreq : req.term < 2 ^ 64)
    {reply : RequestVoteReply} (hr : (m.requestVote req).2 = .ok reply) : reply.Usize := by
  have hdown : (m.stepDown req.term).currentTerm < 2 ^ 64 := by
    rw [stepDown_currentTerm]
    exact max_lt h.term hreq
  rcases m.requestVote_cases req with hc | ⟨-, -, -, hc⟩ | hc
  · rw [hc] at hr
    cases hr
  · rw [hc] at hr
    obtain rfl := Except.ok.inj hr
    exact hdown
  · rw [hc] at hr
    obtain rfl := Except.ok.inj hr
    exact hdown

omit [Storage σ (Command F)] in
theorem conflict_lt (h : m.Sendable) (hlen : m.logs.length < 2 ^ 64) (prev : Option ℕ) :
    (∀ k ∈ (conflict m.logs prev).1, k < 2 ^ 64) ∧ ∀ k ∈ (conflict m.logs prev).2, k < 2 ^ 64 := by
  cases prev with
  | none => simp [conflict]
  | some idx =>
    rw [conflict]
    split
    · simpa using hlen
    · rename_i e he
      have hle := firstIndexOfTerm_le m.logs e.term idx
      have hidx := (List.getElem?_eq_some_iff.mp he).1
      simpa using ⟨(hle.trans_lt hidx).trans hlen, (h.logs e (List.mem_of_getElem? he)).term⟩

theorem Consensus.Sendable.appendReply (h : m.Sendable) (hlen : m.logs.length < 2 ^ 64)
    {req : AppendEntries (Command F)} (hreq : req.term < 2 ^ 64) {reply : AppendEntriesReply}
    (hr : (m.appendEntries req).2 = .ok reply) : reply.Usize := by
  have hnote := (m.stepDown req.term).same_noteLeader req
  have hdown : ((m.stepDown req.term).noteLeader req).currentTerm < 2 ^ 64 := by
    rw [hnote.currentTerm, stepDown_currentTerm]
    exact max_lt h.term hreq
  have hlogs : ((m.stepDown req.term).noteLeader req).logs = m.logs :=
    hnote.logs.trans (m.stepDown_logs req.term)
  have hnone : ∀ k ∈ (none : Option ℕ), k < 2 ^ 64 := fun k hk ↦ absurd hk (Option.not_mem_none k)
  rw [Consensus.appendEntries] at hr
  split at hr
  · cases hr
  · dsimp only at hr
    split at hr
    · obtain rfl := Except.ok.inj hr
      exact ⟨hdown, hnone, hnone⟩
    · split at hr
      · obtain rfl := Except.ok.inj hr
        rw [hlogs]
        exact ⟨hdown, (conflict_lt h hlen _).1, (conflict_lt h hlen _).2⟩
      · obtain rfl := Except.ok.inj hr
        exact ⟨hdown, hnone, hnone⟩

end

/-! ## What is under way -/

section

variable [Storage σ (Command F)] [Serialize F]

/-- What a node restores from this storage can be sent. -/
def Legible (st : σ) : Prop :=
  ∀ old logs, Storage.restore st = some (old, logs) →
    old.currentTerm < 2 ^ 64 ∧ ∀ e ∈ logs, e.Sendable

/-- What comes into the cluster in this step can be sent. -/
def Label.Legible : Label n σ (Command F) → Prop
  | .submit _ cmd => cmd.Sendable
  | .restart _ left | .crashVote _ left | .crashAppend _ left => Efis.Legible left
  | _ => True

omit [Storage σ (Command F)] [Serialize F] in
/-- The logs are not longer than a `usize` can say. -/
def Cluster.Short {C : Type} (c : Cluster n σ C) : Prop := ∀ v, (c.nodes v).logs.length < 2 ^ 64

/-- The nodes and the messages under way can be sent. -/
structure Cluster.Sendable (c : Cluster n σ (Command F)) : Prop where
  nodes : ∀ v, (c.nodes v).Sendable
  voteReqs : ∀ m ∈ c.voteReqs, m.req.Sendable
  voteReplies : ∀ m ∈ c.voteReplies, m.reply.Usize
  appendReqs : ∀ m ∈ c.appendReqs, m.call.req.Sendable
  appendReplies : ∀ m ∈ c.appendReplies, m.reply.Usize

/-- A node that starts has what it restored. -/
theorem Consensus.Sendable.new {id : String} {st : σ} (hid : Nameable id) (hst : Legible st) :
    (Consensus.new id st : Consensus σ (Command F) P).Sendable := by
  refine ⟨by rw [new_id]; exact hid, ?_, ?_, ?_⟩
  · rw [Consensus.new, restoreState]
    split
    · rename_i old logs hr
      exact (hst old logs hr).1
    · exact Nat.two_pow_pos 64
  · rw [new_commitIndex]
    exact fun ci hci ↦ absurd hci (Option.not_mem_none ci)
  · rw [Consensus.new, restoreState]
    split
    · rename_i old logs hr
      exact (hst old logs hr).2
    · exact fun e he ↦ absurd he List.not_mem_nil

variable {cfg : Config n σ (Command F)} {c c' : Cluster n σ (Command F)}

theorem Cluster.Sendable.init (hid : ∀ i, Nameable (cfg.id i))
    (hst : ∀ i, Legible (cfg.storage i)) : cfg.init.Sendable where
  nodes v := by
    obtain ⟨peers, hp, -⟩ := start_spec (cfg.node_eq v)
    obtain ⟨hname, hterm, hci, hlogs⟩ : (Consensus.new (cfg.id v) (cfg.storage v) :
        Consensus σ (Command F) (Fin n)).Sendable := .new (hid v) (hst v)
    change (cfg.node v).Sendable
    rw [hp]
    exact ⟨hname, hterm, hci, hlogs⟩
  voteReqs m hm := absurd hm List.not_mem_nil
  voteReplies m hm := absurd hm List.not_mem_nil
  appendReqs m hm := absurd hm List.not_mem_nil
  appendReplies m hm := absurd hm List.not_mem_nil

/-- What a node is asked to do comes from a message under way, or from outside. -/
theorem Cluster.Sendable.ask (h : c.Sendable) {l : Label n σ (Command F)} (hl : l.Legible)
    {i : Fin n} {op : Op (Command F)} (hask : c.ask l = some (i, op)) : op.Sendable := by
  cases l with
  | startElection i elapsed =>
    obtain ⟨-, rfl⟩ := Prod.mk.inj (Option.some_inj.mp hask)
    trivial
  | submit i cmd =>
    obtain ⟨-, rfl⟩ := Prod.mk.inj (Option.some_inj.mp hask)
    exact hl
  | sendAes i =>
    obtain ⟨-, rfl⟩ := Prod.mk.inj (Option.some_inj.mp hask)
    trivial
  | sendCommit i =>
    obtain ⟨-, rfl⟩ := Prod.mk.inj (Option.some_inj.mp hask)
    trivial
  | voteReq k =>
    obtain ⟨m, hm, hop⟩ := Option.map_eq_some_iff.mp hask
    obtain ⟨-, rfl⟩ := Prod.mk.inj hop
    exact (h.voteReqs m (List.mem_of_getElem? hm)).term
  | voteReply k =>
    obtain ⟨m, hm, hop⟩ := Option.map_eq_some_iff.mp hask
    obtain ⟨-, rfl⟩ := Prod.mk.inj hop
    exact h.voteReplies m (List.mem_of_getElem? hm)
  | appendReq k =>
    obtain ⟨m, hm, hop⟩ := Option.map_eq_some_iff.mp hask
    obtain ⟨-, rfl⟩ := Prod.mk.inj hop
    exact h.appendReqs m (List.mem_of_getElem? hm)
  | appendReply k =>
    obtain ⟨m, hm, hop⟩ := Option.map_eq_some_iff.mp hask
    obtain ⟨-, rfl⟩ := Prod.mk.inj hop
    exact (h.appendReplies m (List.mem_of_getElem? hm)).term
  | restart i left => cases hask
  | crashVote k left => cases hask
  | crashAppend k left => cases hask

theorem Consensus.Sendable.reboot {m : Consensus σ (Command F) P} (h : m.Sendable) {left : σ}
    (hleft : Legible left) (t : ℕ) : ((m.stepDown t).reboot left).Sendable := by
  have hid : (m.stepDown t).id = m.id := (Quiet.stepDown m t).id
  have hnew : (Consensus.new (m.stepDown t).id left : Consensus σ (Command F) P).Sendable :=
    .new (hid ▸ h.id) hleft
  exact ⟨hnew.id, hnew.term, hnew.commitIndex, hnew.logs⟩

theorem Cluster.Sendable.step_nodes (h : c.Sendable) (hc : c.Short) {l : Label n σ (Command F)}
    (hl : l.Legible) (hs : c.step l = some c') : ∀ v, (c'.nodes v).Sendable := by
  have hset : ∀ {i : Fin n} {m : Consensus σ (Command F) (Fin n)}, m.Sendable →
      ∀ v, ((c.set i m).nodes v).Sendable := fun {i m} hm v ↦ by
    by_cases hv : v = i
    · rw [hv, Cluster.set_self]
      exact hm
    · rw [Cluster.set_of_ne c m hv]
      exact h.nodes v
  have halive : l.Alive → ∀ v, (c'.nodes v).Sendable := fun hal v ↦ by
    obtain ⟨i, op, hask, -, hdoes⟩ := Cluster.step_handle hal hs
    refine hdoes.forall (R := fun m m' ↦ m.Sendable → m'.Sendable) (fun _ hm ↦ hm)
      (fun m hm hi ↦ ?_) v (h.nodes v)
    exact hi.handle (h.ask hl hask) (hc i) hm
  cases l with
  | restart i left =>
    obtain ⟨-, rfl⟩ := Cluster.step_restart hs
    have hstep : (c.nodes i).stepDown 0 = c.nodes i := if_neg (Nat.not_lt_zero _)
    exact hset (hstep ▸ (h.nodes i).reboot hl 0)
  | crashVote k left =>
    obtain ⟨m, -, -, rfl⟩ := Cluster.step_crashVote hs
    exact hset ((h.nodes m.dst).reboot hl m.req.term)
  | crashAppend k left =>
    obtain ⟨m, -, -, rfl⟩ := Cluster.step_crashAppend hs
    exact hset ((h.nodes m.call.client).reboot hl m.call.req.term)
  | _ => exact halive trivial

/-- **What can be sent stays so.** -/
theorem Cluster.Sendable.step (h : c.Sendable) (hc : c.Short) {l : Label n σ (Command F)}
    (hl : l.Legible) (hs : c.step l = some c') : c'.Sendable := by
  have hnodes := h.step_nodes hc hl hs
  have hold : ∀ {α : Type} {p : α → Prop} {as : List α} (k : ℕ), (∀ a ∈ as, p a) →
      ∀ a ∈ as.eraseIdx k, p a := fun k hp a ha ↦ hp a (List.mem_of_mem_eraseIdx ha)
  cases l with
  | startElection i elapsed =>
    obtain ⟨-, rfl⟩ := Cluster.on_eq_some.mp hs
    rw [Cluster.startElection] at hnodes ⊢
    cases hm : (c.nodes i).onStartElection elapsed with
    | none =>
      rw [hm] at hnodes
      exact ⟨hnodes, h.voteReqs, h.voteReplies, h.appendReqs, h.appendReplies⟩
    | some res =>
      rw [hm] at hnodes
      refine ⟨hnodes, fun a ha ↦ ?_, h.voteReplies, h.appendReqs, h.appendReplies⟩
      rcases List.mem_append.mp ha with ha | ha
      · exact h.voteReqs a ha
      · obtain ⟨r, hr, rfl⟩ := List.mem_map.mp ha
        exact (h.nodes i).voteReq (hc i) hm r hr
  | submit i cmd =>
    obtain ⟨-, rfl⟩ := Cluster.on_eq_some.mp hs
    exact ⟨hnodes, h.voteReqs, h.voteReplies, h.appendReqs, h.appendReplies⟩
  | sendAes i =>
    obtain ⟨-, rfl⟩ := Cluster.on_eq_some.mp hs
    rw [Cluster.sendAes] at hnodes ⊢
    cases hm : (c.nodes i).sendLeaderAes with
    | none =>
      rw [hm] at hnodes
      exact ⟨hnodes, h.voteReqs, h.voteReplies, h.appendReqs, h.appendReplies⟩
    | some res =>
      rw [hm] at hnodes
      refine ⟨hnodes, h.voteReqs, h.voteReplies, fun a ha ↦ ?_, h.appendReplies⟩
      rcases List.mem_append.mp ha with ha | ha
      · exact h.appendReqs a ha
      · obtain ⟨call, hcall, rfl⟩ := List.mem_map.mp ha
        exact (h.nodes i).sendLeaderAes (hc i) hm call hcall
  | sendCommit i =>
    obtain ⟨-, rfl⟩ := Cluster.on_eq_some.mp hs
    rw [Cluster.sendCommit] at hnodes ⊢
    cases hm : (c.nodes i).sendCommits with
    | none =>
      rw [hm] at hnodes
      exact ⟨hnodes, h.voteReqs, h.voteReplies, h.appendReqs, h.appendReplies⟩
    | some res =>
      rw [hm] at hnodes
      exact ⟨hnodes, h.voteReqs, h.voteReplies, h.appendReqs, h.appendReplies⟩
  | voteReq k =>
    obtain ⟨m, hm, rfl⟩ := Cluster.step_voteReq hs
    have hreq := h.voteReqs m (List.mem_of_getElem? hm)
    simp only [Cluster.requestVote] at hnodes ⊢
    cases hr : ((c.nodes m.dst).requestVote m.req).2 with
    | error e =>
      simp only [List.append_nil] at hnodes ⊢
      exact ⟨hnodes, hold k h.voteReqs, h.voteReplies, h.appendReqs, h.appendReplies⟩
    | ok reply =>
      refine ⟨hnodes, hold k h.voteReqs, fun a ha ↦ ?_, h.appendReqs, h.appendReplies⟩
      rcases List.mem_append.mp ha with ha | ha
      · exact h.voteReplies a ha
      · rw [List.mem_singleton.mp ha]
        exact (h.nodes m.dst).voteReply hreq.term hr
  | voteReply k =>
    obtain ⟨m, -, rfl⟩ := Cluster.step_voteReply hs
    exact ⟨hnodes, h.voteReqs, hold k h.voteReplies, h.appendReqs, h.appendReplies⟩
  | appendReq k =>
    obtain ⟨m, hm, rfl⟩ := Cluster.step_appendReq hs
    have hreq := h.appendReqs m (List.mem_of_getElem? hm)
    simp only [Cluster.appendEntries] at hnodes ⊢
    cases hr : ((c.nodes m.call.client).appendEntries m.call.req).2 with
    | error e =>
      simp only [hr] at hnodes
      exact ⟨hnodes, h.voteReqs, h.voteReplies, hold k h.appendReqs, h.appendReplies⟩
    | ok reply =>
      simp only [hr] at hnodes
      refine ⟨hnodes, h.voteReqs, h.voteReplies, hold k h.appendReqs, fun a ha ↦ ?_⟩
      rcases List.mem_append.mp ha with ha | ha
      · exact h.appendReplies a ha
      · rw [List.mem_singleton.mp ha]
        exact (h.nodes m.call.client).appendReply (hc _) hreq.usize.term hr
  | appendReply k =>
    obtain ⟨m, -, rfl⟩ := Cluster.step_appendReply hs
    rw [Cluster.aeRes] at hnodes ⊢
    dsimp only at hnodes ⊢
    split
    · rename_i hm
      rw [hm] at hnodes
      exact ⟨hnodes, h.voteReqs, h.voteReplies, h.appendReqs, hold k h.appendReplies⟩
    · rename_i node hm
      rw [hm] at hnodes
      exact ⟨hnodes, h.voteReqs, h.voteReplies, h.appendReqs, hold k h.appendReplies⟩
  | restart i left =>
    obtain ⟨-, rfl⟩ := Cluster.step_restart hs
    exact ⟨hnodes, h.voteReqs, h.voteReplies, h.appendReqs, h.appendReplies⟩
  | crashVote k left =>
    obtain ⟨m, -, -, rfl⟩ := Cluster.step_crashVote hs
    exact ⟨hnodes, hold k h.voteReqs, h.voteReplies, h.appendReqs, h.appendReplies⟩
  | crashAppend k left =>
    obtain ⟨m, -, -, rfl⟩ := Cluster.step_crashAppend hs
    exact ⟨hnodes, h.voteReqs, h.voteReplies, hold k h.appendReqs, h.appendReplies⟩

end

/-! ## Nothing is changed on the way -/

section

variable [Storage σ (Command F)] [Serialize F] [Deserialize F] [LawfulFloat F]
  {cfg : Config n σ (Command F)} {c c' : Cluster n σ (Command F)}

omit [Storage σ (Command F)] [Serialize F] [Deserialize F] [LawfulFloat F] in
theorem RequestVote.Sendable.arrive {r : RequestVote} (h : r.Sendable) (i : Fin n) :
    Efis.arrive (c.host i) .requestVote r = some r :=
  arrive_eq rfl (by decide) rfl h.newline_not_mem h.deserialize_eq

omit [Storage σ (Command F)] in
theorem AppendEntries.Sendable.arrive {req : AppendEntries (Command F)} (h : req.Sendable)
    (i : Fin n) : Efis.arrive (c.host i) .appendEntries req = some req :=
  arrive_eq rfl (by decide) rfl h.newline_not_mem
    (AppendEntries.deserialize_eq h.usize h.readable)

/-- **Messages arrive as they were sent**, and replies come back as they were given. -/
theorem Cluster.Sendable.textStep_eq (h : c.Sendable) (l : Label n σ (Command F)) :
    c.textStep l = c.step l := by
  cases l with
  | voteReq k =>
    rw [Cluster.textStep, Cluster.step]
    cases hm : c.voteReqs[k]? with
    | none => rfl
    | some m =>
      have harr := (h.voteReqs m (List.mem_of_getElem? hm)).arrive (c := c) m.dst
      simp only [Option.bind_eq_bind, Option.bind_some, harr]
  | voteReply k =>
    rw [Cluster.textStep, Cluster.step]
    cases hm : c.voteReplies[k]? with
    | none => rfl
    | some m =>
      have hback : comeBack m.reply = some m.reply :=
        comeBack_eq m.reply.newline_not_mem
          (RequestVoteReply.classify_eq (h.voteReplies m (List.mem_of_getElem? hm)))
      simp only [Option.bind_eq_bind, Option.bind_some, hback]
  | appendReq k =>
    rw [Cluster.textStep, Cluster.step]
    cases hm : c.appendReqs[k]? with
    | none => rfl
    | some m =>
      have harr := (h.appendReqs m (List.mem_of_getElem? hm)).arrive (c := c) m.call.client
      simp only [Option.bind_eq_bind, Option.bind_some, harr]
  | appendReply k =>
    rw [Cluster.textStep, Cluster.step]
    cases hm : c.appendReplies[k]? with
    | none => rfl
    | some m =>
      have hback : comeBack m.reply = some m.reply :=
        comeBack_eq m.reply.newline_not_mem
          (AppendEntriesReply.classify_eq (h.appendReplies m (List.mem_of_getElem? hm)))
      simp only [Option.bind_eq_bind, Option.bind_some, hback]
  | crashVote k left =>
    rw [Cluster.textStep, Cluster.step]
    cases hm : c.voteReqs[k]? with
    | none => rfl
    | some m =>
      have harr := (h.voteReqs m (List.mem_of_getElem? hm)).arrive (c := c) m.dst
      simp only [Option.bind_eq_bind, Option.bind_some, harr]
  | crashAppend k left =>
    rw [Cluster.textStep, Cluster.step]
    cases hm : c.appendReqs[k]? with
    | none => rfl
    | some m =>
      have harr := (h.appendReqs m (List.mem_of_getElem? hm)).arrive (c := c) m.call.client
      simp only [Option.bind_eq_bind, Option.bind_some, harr]
  | _ => rfl

/-- **The cluster over the wire is the cluster.**  If the ids of the nodes can be sent, and so can
what they have stored at the start, the commands that are submitted and what a crash leaves, then
the runs in which every message takes its way over the wire are those in which the messages are
handed over. -/
theorem text_run_iff (cfg : Config n σ (Command F)) (hid : ∀ i, Nameable (cfg.id i))
    (hst : ∀ i, Legible (cfg.storage i))
    {ok : Cluster n σ (Command F) → Label n σ (Command F) → Prop}
    (hok : ∀ c l, ok c l → c.Short ∧ l.Legible) (r : List (Cluster n σ (Command F))) :
    Cluster.TextRun cfg ok r ↔ Cluster.Run cfg ok r := by
  have hinit : cfg.init.Sendable := .init hid hst
  have hrun : ∀ r, Cluster.Run cfg ok r → ∀ c ∈ r, c.Sendable := fun r hr ↦
    hr.inv hinit fun c l c' hc hl hs ↦ hc.step (hok c l hl).1 (hok c l hl).2 hs
  constructor
  · intro h
    induction h with
    | init => exact .init
    | @step c c' r l _ hl hs ih =>
      have hc := hrun _ ih c List.mem_cons_self
      exact ih.step hl (hc.textStep_eq l ▸ hs)
  · intro h
    induction h with
    | init => exact .init
    | @step c c' r l hr hl hs ih =>
      have hc := hrun _ hr c List.mem_cons_self
      exact ih.step hl ((hc.textStep_eq l).trans hs)

end

/-- Three nodes that have nothing stored. -/
def wired : Config 3 (MockStorage (Command Int64)) (Command Int64) :=
  Service.stores Int64

/-- A command with a blank in it. -/
def blank : Command Int64 := .set ⟨"k", "a b", none⟩

theorem blank_sendable : blank.Sendable where
  readable := by
    have hstrings : FieldString "k" ∧ FieldString "a b" := by decide +kernel
    exact ⟨hstrings, by decide +kernel, by decide +kernel⟩
  nested := by decide +kernel
  line := by decide +kernel

/-- No other command is submitted, and nobody crashes. -/
def OnlyBlank (c : Cluster 3 (MockStorage (Command Int64)) (Command Int64)) :
    Label 3 (MockStorage (Command Int64)) (Command Int64) → Prop
  | .submit _ cmd => c.Short ∧ cmd = blank
  | l => c.Short ∧ l.Alive

instance (c : Cluster 3 (MockStorage (Command Int64)) (Command Int64)) : Decidable c.Short :=
  inferInstanceAs (Decidable (∀ _, _))

instance (c : Cluster 3 (MockStorage (Command Int64)) (Command Int64)) :
    (l : Label 3 (MockStorage (Command Int64)) (Command Int64)) → Decidable (OnlyBlank c l)
  | .submit _ cmd => inferInstanceAs (Decidable (c.Short ∧ cmd = blank))
  | .startElection _ _ | .sendAes _ | .sendCommit _ | .voteReq _ | .voteReply _ | .appendReq _
  | .appendReply _ | .restart _ _ | .crashVote _ _ | .crashAppend _ _ =>
    inferInstanceAs (Decidable (c.Short ∧ Label.Alive _))

theorem OnlyBlank.legible {c : Cluster 3 (MockStorage (Command Int64)) (Command Int64)}
    {l : Label 3 (MockStorage (Command Int64)) (Command Int64)} (h : OnlyBlank c l) :
    c.Short ∧ l.Legible := by
  cases l with
  | submit i cmd =>
    obtain ⟨hc, rfl⟩ := h
    exact ⟨hc, blank_sendable⟩
  | restart i left => exact absurd h.2 id
  | crashVote k left => exact absurd h.2 id
  | crashAppend k left => exact absurd h.2 id
  | _ => exact ⟨h.1, trivial⟩

/-- The command gets to another node, and its reply back. -/
theorem text_run_iff_wired :
    ∃ r, Cluster.TextRun wired OnlyBlank r ∧
      (r.head?.map fun c ↦ ((c.nodes 1).logs, (c.nodes 0).commitIndex)) =
        some ([⟨blank, 1⟩], some 0) := by
  have hname : ∀ i, Nameable (wired.id i) := fun i ↦ by
    have h : ∀ i, FieldString (trio.id i) ∧ kvScanner.Passes 0 (serialize (trio.id i)) ∧
        '\n' ∉ (trio.id i).toList := by decide +kernel
    exact ⟨(h i).1, (h i).2.1, (h i).2.2⟩
  have hst : ∀ i, Legible (wired.storage i) := fun i old logs h ↦ by
    obtain ⟨rfl, rfl⟩ := Prod.mk.inj (Option.some_inj.mp h)
    exact ⟨Nat.two_pow_pos 64, fun e he ↦ absurd he List.not_mem_nil⟩
  let ls : List (Label 3 (MockStorage (Command Int64)) (Command Int64)) :=
    [.startElection 0 true, .voteReq 0, .voteReply 0, .submit 0 blank, .sendAes 0, .appendReq 0,
      .appendReply 0]
  have hlogs : ((wired.init.extend OnlyBlank [] ls).bind fun r ↦
      r.head?.map fun c ↦ ((c.nodes 1).logs, (c.nodes 0).commitIndex)) =
        some ([⟨blank, 1⟩], some 0) := by decide +kernel
  obtain ⟨r, hr, hhead⟩ := Option.bind_eq_some_iff.mp hlogs
  have hrun : Cluster.Run wired OnlyBlank r := Cluster.Run.init.extend hr
  exact ⟨r, (text_run_iff wired hname hst (fun c l h ↦ h.legible) r).mpr hrun, hhead⟩

end Efis
