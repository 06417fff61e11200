import Efis.Channel.Ring
import Efis.Server.Service
import Mathlib.Data.List.Basic

/-!
# Publishing

The map of broadcast channels that `PubSub` keeps, and the task that `Efis::subscribe` spawns for
every subscription.  A channel is made by its first subscription and stays.  What is published to
the channel is kept in a ring of 1024 places, from which each task takes the messages one by one and
puts them into a channel of ten.  A task that finds it has missed something ends.

So a subscriber gets the messages of its own channel from when it subscribed, in order and without a
gap, and either it has not missed any, or it fell behind by more than 1024 and gets no more
(`taken_in_order`).  That its client has gone away is not noticed: the wrapper of the stream goes on
taking messages out of the channel of ten, and `publish` goes on counting the task.

With consensus a message is published on every node, by the apply loops.  Then subscribers on
different nodes get the same messages in the same order (`subscribers_agree`).
-/

set_option autoImplicit false

namespace Efis

open Channel Transition

/-! ## The channels -/

/-- The task of a subscription. -/
structure Subscriber where
  chan : String
  /-- How many messages had been published to the channel before. -/
  since : ℕ
  /-- The position that its receiver wants next. -/
  next : ℕ
  running : Bool
  /-- The messages it has taken. -/
  taken : List String
  /-- The channel of ten, and the message that waits to be put there. -/
  rx : List String
  deriving DecidableEq

/-- A call of `publish` and what it returned. -/
structure Publication where
  chan : String
  value : String
  sent : ℕ
  deriving DecidableEq

structure PubSub where
  channels : String → Option (Ring String 1024)
  subscribers : List Subscriber
  /-- All calls of `publish`.  It is not in the source. -/
  log : List Publication

namespace PubSub

def new : PubSub := ⟨fun _ ↦ none, [], []⟩

variable (s : PubSub)

/-- What has been published to a channel. -/
def messages (chan : String) : List String :=
  (s.log.filter fun p ↦ p.chan = chan).map Publication.value

/-- The receivers of a channel are those of the tasks that are running. -/
def receivers (chan : String) : ℕ :=
  s.subscribers.countP fun sub ↦ sub.running ∧ sub.chan = chan

def subscribe (chan : String) : PubSub :=
  let ring := (s.channels chan).getD .new
  { s with
    channels := Function.update s.channels chan (some ring)
    subscribers := s.subscribers ++ [⟨chan, (s.messages chan).length, ring.tail, true, [], []⟩] }

/-- What `publish` returns: the number of receivers.  Without any the value is not sent. -/
def sent (chan : String) : ℕ :=
  match s.channels chan with
  | some _ => s.receivers chan
  | none => 0

def publish (chan value : String) : PubSub :=
  { s with
    channels :=
      if s.sent chan = 0 then s.channels
      else Function.update s.channels chan ((s.channels chan).map (·.send value))
    log := s.log ++ [⟨chan, value, s.sent chan⟩] }

def put (k : ℕ) (sub : Subscriber) : PubSub :=
  { s with subscribers := s.subscribers.set k sub }

/-- `while let Ok(msg) = sub.recv().await`, while there is a place for the message. -/
def relay (k : ℕ) : Option PubSub := do
  let sub ← s.subscribers[k]?
  let ring ← s.channels sub.chan
  if sub.running ∧ sub.rx.length < 11 then
    match ← Link.recv ⟨ring, sub.next⟩ with
    | (some msg, l) => some (s.put k
        { sub with next := l.next, taken := sub.taken ++ [msg], rx := sub.rx ++ [msg] })
    | (none, _) => some (s.put k { sub with running := false })
  else none

/-- The wrapper of the stream takes a message, whether or not the client is still there. -/
def wrap (k : ℕ) : Option PubSub := do
  let sub ← s.subscribers[k]?
  if sub.rx = [] then none
  else some (s.put k { sub with rx := sub.rx.tail })

inductive Act where
  | subscribe (chan : String)
  | publish (chan value : String)
  | relay (k : ℕ)
  | wrap (k : ℕ)

def step (s : PubSub) : Act → Option PubSub
  | .subscribe chan => some (s.subscribe chan)
  | .publish chan value => some (s.publish chan value)
  | .relay k => s.relay k
  | .wrap k => s.wrap k

/-! ## What a subscriber gets -/

/-- What has been published to the channel of a subscriber since it subscribed. -/
def due (sub : Subscriber) : List String := (s.messages sub.chan).drop sub.since

/-- A task that is running has missed nothing so far, and one that is not fell behind. -/
structure Follows (sub : Subscriber) : Prop where
  since : sub.since ≤ (s.messages sub.chan).length
  running : sub.running = true → ∃ ring base, s.channels sub.chan = some ring ∧
    Link.Lossy base ⟨ring, sub.next⟩ (s.due sub) sub.taken ∧
    sub.taken = (s.due sub).take (sub.next - base)
  stopped : sub.running = false →
    sub.taken <+: s.due sub ∧ sub.taken.length + 1024 < (s.due sub).length

variable {s} {s' : PubSub} {sub : Subscriber}

theorem Follows.isPrefix (h : s.Follows sub) : sub.taken <+: s.due sub := by
  cases hr : sub.running with
  | true =>
    obtain ⟨ring, base, -, -, htaken⟩ := h.running hr
    exact htaken ▸ List.take_prefix ..
  | false => exact (h.stopped hr).1

/-- Only what concerns the channel of the subscriber matters to it. -/
theorem Follows.of_eq (h : s.Follows sub) (hc : s'.channels sub.chan = s.channels sub.chan)
    (hm : s'.messages sub.chan = s.messages sub.chan) : s'.Follows sub := by
  have hdue : s'.due sub = s.due sub := by rw [due, hm, due]
  exact ⟨hm ▸ h.since, by rw [hdue, hc]; exact h.running, by rw [hdue]; exact h.stopped⟩

theorem messages_publish (s : PubSub) (chan value : String) :
    (s.publish chan value).messages chan = s.messages chan ++ [value] := by
  simp [messages, publish]

theorem messages_publish_of_ne (s : PubSub) {chan chan' : String} (value : String)
    (h : chan ≠ chan') : (s.publish chan value).messages chan' = s.messages chan' := by
  simp [messages, publish, h]

/-- A subscriber that is running is counted. -/
theorem receivers_ne_zero (hsub : sub ∈ s.subscribers) (hr : sub.running = true) :
    s.receivers sub.chan ≠ 0 := by
  have hpos : 0 < s.receivers sub.chan :=
    List.countP_pos_iff.mpr ⟨sub, hsub, decide_eq_true ⟨hr, rfl⟩⟩
  omega

theorem Follows.publish (h : s.Follows sub) (hsub : sub ∈ s.subscribers) (chan value : String) :
    (s.publish chan value).Follows sub := by
  by_cases hchan : chan = sub.chan
  · subst hchan
    have hm := s.messages_publish sub.chan value
    have hdue : (s.publish sub.chan value).due sub = s.due sub ++ [value] := by
      rw [due, hm, List.drop_append_of_le_length h.since, due]
    refine ⟨?_, fun hr ↦ ?_, fun hr ↦ ?_⟩
    · rw [hm, List.length_append]
      exact h.since.trans (Nat.le_add_right ..)
    · obtain ⟨ring, base, hring, hlossy, htaken⟩ := h.running hr
      have hsent : s.sent sub.chan ≠ 0 := by
        rw [sent, hring]
        exact receivers_ne_zero hsub hr
      refine ⟨ring.send value, base, ?_, ?_, ?_⟩
      · rw [PubSub.publish]
        simp only [if_neg hsent, Function.update_self, hring, Option.map_some]
      · rw [hdue]
        exact hlossy.send value
      · rw [hdue]
        exact htaken.trans (hlossy.take_concat value).symm
    · obtain ⟨hpre, hlen⟩ := h.stopped hr
      rw [hdue, List.length_append]
      exact ⟨hpre.trans (List.prefix_append ..), by omega⟩
  · refine h.of_eq ?_ (s.messages_publish_of_ne value hchan)
    rw [PubSub.publish]
    dsimp only
    split
    · rfl
    · exact Function.update_of_ne (Ne.symm hchan) ..

theorem Follows.subscribe (h : s.Follows sub) (chan : String) : (s.subscribe chan).Follows sub := by
  refine ⟨h.since, fun hr ↦ ?_, h.stopped⟩
  obtain ⟨ring, base, hring, hlossy, htaken⟩ := h.running hr
  refine ⟨ring, base, ?_, hlossy, htaken⟩
  by_cases hchan : sub.chan = chan
  · subst hchan
    exact (Function.update_self ..).trans (congrArg some (congrArg (Option.getD · .new) hring))
  · exact (Function.update_of_ne hchan ..).trans hring

/-- A new subscriber has nothing to get. -/
theorem follows_new (s : PubSub) (chan : String) :
    (s.subscribe chan).Follows ⟨chan, (s.messages chan).length,
      ((s.channels chan).getD .new).tail, true, [], []⟩ := by
  have hdue : (s.subscribe chan).due ⟨chan, (s.messages chan).length,
      ((s.channels chan).getD .new).tail, true, [], []⟩ = [] := List.drop_length
  refine ⟨le_rfl, fun _ ↦ ?_, fun hr ↦ Bool.noConfusion hr⟩
  rw [hdue]
  exact ⟨(s.channels chan).getD .new, ((s.channels chan).getD .new).tail,
    Function.update_self .., (Link.exact_subscribe _).lossy, List.take_nil.symm⟩

/-- A task takes a message, or finds that it has missed one. -/
theorem relay_cases {k : ℕ} (hs : s.relay k = some s') :
    ∃ sub ring, s.subscribers[k]? = some sub ∧ s.channels sub.chan = some ring ∧
      sub.running = true ∧
      ((∃ msg l, Link.recv ⟨ring, sub.next⟩ = some (some msg, l) ∧
        s' = s.put k
          { sub with next := l.next, taken := sub.taken ++ [msg], rx := sub.rx ++ [msg] }) ∨
      (∃ l, Link.recv ⟨ring, sub.next⟩ = some (none, l) ∧
        s' = s.put k { sub with running := false })) := by
  rw [relay] at hs
  obtain ⟨sub, hsub, hs⟩ := Option.bind_eq_some_iff.mp hs
  obtain ⟨ring, hring, hs⟩ := Option.bind_eq_some_iff.mp hs
  refine ⟨sub, ring, hsub, hring, ?_⟩
  split at hs
  · rename_i hr
    obtain ⟨⟨o, l⟩, hrecv, hs⟩ := Option.bind_eq_some_iff.mp hs
    refine ⟨hr.1, ?_⟩
    cases o with
    | some msg => exact Or.inl ⟨msg, l, hrecv, (Option.some_inj.mp hs).symm⟩
    | none => exact Or.inr ⟨l, hrecv, (Option.some_inj.mp hs).symm⟩
  · cases hs

/-- **Every step keeps all subscribers in order.** -/
theorem follows_step (h : ∀ sub ∈ s.subscribers, s.Follows sub) {a : Act}
    (hs : s.step a = some s') : ∀ sub ∈ s'.subscribers, s'.Follows sub := by
  cases a with
  | subscribe chan =>
    obtain rfl := Option.some_inj.mp hs
    intro sub hsub
    rcases List.mem_append.mp hsub with hsub | hsub
    · exact (h sub hsub).subscribe chan
    · rw [List.mem_singleton.mp hsub]
      exact s.follows_new chan
  | publish chan value =>
    obtain rfl := Option.some_inj.mp hs
    exact fun sub hsub ↦ (h sub hsub).publish hsub chan value
  | wrap k =>
    obtain ⟨sub, hsub, hs⟩ := Option.bind_eq_some_iff.mp hs
    split at hs
    · cases hs
    · obtain rfl := Option.some_inj.mp hs
      have hold := h sub (List.mem_of_getElem? hsub)
      intro sub' hsub'
      rcases List.mem_or_eq_of_mem_set hsub' with hsub' | rfl
      · exact (h sub' hsub').of_eq rfl rfl
      · exact ⟨hold.since, hold.running, hold.stopped⟩
  | relay k =>
    obtain ⟨sub, ring, hsub, hring, hr, hcase⟩ := relay_cases hs
    have hold := h sub (List.mem_of_getElem? hsub)
    obtain ⟨ring', base, hring', hlossy, htaken⟩ := hold.running hr
    obtain rfl := Option.some_inj.mp (hring.symm.trans hring')
    rcases hcase with ⟨msg, l, hrecv, rfl⟩ | ⟨l, hrecv, rfl⟩
    · intro sub' hsub'
      rcases List.mem_or_eq_of_mem_set hsub' with hsub' | rfl
      · exact (h sub' hsub').of_eq rfl rfl
      · have hnew := hlossy.recv hrecv
        rcases Link.recv_cases hrecv with ⟨x, hx, hat, rfl⟩ | ⟨hx, -, -⟩
        · obtain rfl := Option.some_inj.mp hx
          refine ⟨hold.since, fun _ ↦ ⟨ring, base, hring, hnew, ?_⟩, fun hf ↦ ?_⟩
          · have hsucc := hlossy.take_succ hat
            rw [← htaken] at hsucc
            exact hsucc.symm
          · exact Bool.noConfusion (hr.symm.trans hf)
        · cases hx
    · intro sub' hsub'
      rcases List.mem_or_eq_of_mem_set hsub' with hsub' | rfl
      · exact (h sub' hsub').of_eq rfl rfl
      · rcases Link.recv_cases hrecv with ⟨x, hx, -, -⟩ | ⟨-, hlt, -⟩
        · cases hx
        · -- the message it wants is no longer among the last 1024
          refine ⟨hold.since, fun hf ↦ Bool.noConfusion hf, fun _ ↦ ⟨hold.isPrefix, ?_⟩⟩
          have htail := hlossy.tail
          have hbase := hlossy.base_le
          have hlen := congrArg List.length htaken
          rw [List.length_take] at hlen
          simp only [Ring.oldest] at hlt htail hbase
          change sub.taken.length + 1024 < (s.due sub).length
          omega

theorem Reach.follows {ok : PubSub → Act → Prop} (h : Reach step ok new s) :
    ∀ sub ∈ s.subscribers, s.Follows sub := by
  let I : PubSub → Prop := fun s ↦ ∀ sub ∈ s.subscribers, s.Follows sub
  have hkeep : ∀ s a s', I s → ok s a → step s a = some s' → I s' :=
    fun s a s' hi _ hs ↦ follows_step hi hs
  have hinit : I new := fun sub hsub ↦ absurd hsub List.not_mem_nil
  exact h.inv hinit hkeep

/-- The task of a subscriber has nothing to take. -/
def Waits (s : PubSub) (sub : Subscriber) : Prop :=
  ∃ ring, s.channels sub.chan = some ring ∧ Link.recv ⟨ring, sub.next⟩ = none

/-- **Messages are taken in order and without a gap.**  In every run, whatever the order of
subscriptions, of messages on any channel and of the steps of the tasks: what a subscriber has taken
is the beginning of what was published to its channel since it subscribed; it is all of it if the
task is running and waits; a task that no longer runs was more than 1024 messages behind; and
`publish` returns `0` only if there is no subscriber of the channel for which this is not so. -/
theorem taken_in_order (h : Reach step (fun _ _ ↦ True) new s) :
    (∀ sub ∈ s.subscribers, sub.taken <+: s.due sub ∧
      (sub.running = true → s.Waits sub → sub.taken = s.due sub) ∧
      (sub.running = false → sub.taken.length + 1024 < (s.due sub).length)) ∧
    ∀ chan, s.sent chan = 0 ↔ ∀ sub ∈ s.subscribers, sub.chan = chan → sub.running = false := by
  have hfollows := Reach.follows h
  refine ⟨fun sub hsub ↦ ⟨(hfollows sub hsub).isPrefix, fun hr hw ↦ ?_,
    fun hr ↦ ((hfollows sub hsub).stopped hr).2⟩, fun chan ↦ ⟨fun hsent sub hsub hchan ↦ ?_, ?_⟩⟩
  · obtain ⟨ring, hring, hnone⟩ := hw
    obtain ⟨ring', base, hring', hlossy, htaken⟩ := (hfollows sub hsub).running hr
    obtain rfl := Option.some_inj.mp (hring.symm.trans hring')
    have hback := Link.backlog_eq_zero hnone
    have htail := hlossy.tail
    rw [Link.backlog] at hback
    dsimp only at hback htail
    rw [htaken]
    exact List.take_of_length_le (by omega)
  · subst hchan
    by_contra hr
    rw [Bool.not_eq_false] at hr
    obtain ⟨ring, base, hring, -⟩ := (hfollows sub hsub).running hr
    rw [sent, hring] at hsent
    exact receivers_ne_zero hsub hr hsent
  · intro hall
    rw [sent]
    split
    · refine List.countP_eq_zero.mpr fun sub hsub hmem ↦ ?_
      obtain ⟨hr, hchan⟩ := of_decide_eq_true hmem
      exact Bool.noConfusion (hr.symm.trans (hall sub hsub hchan))
    · rfl

/-- Two subscribers to one channel, the second of which comes after a message. -/
theorem taken_in_order_two :
    ∃ s, Reach step (fun _ _ ↦ True) new s ∧ (s.subscribers.map Subscriber.taken) = [["x"], []] ∧
      s.sent "a" ≠ 0 := by
  have hr : Reach step (fun _ _ ↦ True) new
      ((run step (fun _ _ ↦ True) new [.publish "a" "w", .subscribe "a", .publish "a" "x",
        .subscribe "a", .publish "b" "y", .relay 0, .wrap 0]).get (by decide +kernel)) :=
    Reach.start.run (Option.some_get _).symm
  refine ⟨_, hr, by decide +kernel, fun hsent ↦ ?_⟩
  have hstop := ((taken_in_order hr).2 "a").mp hsent
  revert hstop
  decide +kernel

end PubSub

/-! ## Publishing on all nodes -/

variable {n : ℕ} {σ F : Type}

/-- The processes of a cluster with their subscribers. -/
structure Deployment (n : ℕ) (σ F : Type) where
  service : Service n σ F
  pubsub : Fin n → PubSub
  /-- How many of its commands the apply loop of a process has got to. -/
  applied : Fin n → ℕ

namespace Deployment

inductive Act (n : ℕ) (σ F : Type) where
  | service (a : Service.Act n σ F)
  /-- The apply loop of process `i` gets to its next command, and publishes if that is what the
  command says. -/
  | apply (i : Fin n)
  | subscribe (i : Fin n) (chan : String)
  | relay (i : Fin n) (k : ℕ)
  | wrap (i : Fin n) (k : ℕ)

def onPubSub (s : Deployment n σ F) (i : Fin n) (a : PubSub.Act) : Option (Deployment n σ F) :=
  ((s.pubsub i).step a).map fun p ↦ { s with pubsub := Function.update s.pubsub i p }

/-- What the command of a request does to the channels. -/
def announce (p : PubSub) : Command F → PubSub
  | .publish req => p.publish req.chan req.value
  | _ => p

variable [Storage σ (Command F)] (num : Numeric) (shard : Fin n → String → ℕ)

/-- One step.  An apply loop receives nothing before it is done with what it received. -/
def step (s : Deployment n σ F) : Act n σ F → Option (Deployment n σ F)
  | .service (.recv i) =>
    if s.applied i = (s.service.executed i).length then
      (s.service.step num shard (.recv i)).map fun t ↦ { s with service := t }
    else none
  | .service a => (s.service.step num shard a).map fun t ↦ { s with service := t }
  | .apply i =>
    ((s.service.executed i)[s.applied i]?).map fun cmd ↦
      { s with
        pubsub := Function.update s.pubsub i (announce (s.pubsub i) cmd)
        applied := Function.update s.applied i (s.applied i + 1) }
  | .subscribe i chan => s.onPubSub i (.subscribe chan)
  | .relay i k => s.onPubSub i (.relay k)
  | .wrap i k => s.onPubSub i (.wrap k)

/-- Nobody has subscribed yet. -/
def start (cfg : Config n σ (Command F)) (store : Fin n → Datastore F) : Deployment n σ F where
  service := .start cfg store
  pubsub _ := .new
  applied _ := 0

def Orderly (cfg : Config n σ (Command F)) (s : Deployment n σ F) : Act n σ F → Prop
  | .service a => Service.Orderly cfg s.service a
  | _ => True

instance (cfg : Config n σ (Command F)) [DecidableEq F] (s : Deployment n σ F) (a : Act n σ F) :
    Decidable (Orderly cfg s a) :=
  match a with
  | .service a => inferInstanceAs (Decidable (Service.Orderly cfg s.service a))
  | .apply _ | .subscribe _ _ | .relay _ _ | .wrap _ _ => inferInstanceAs (Decidable True)

/-- What the command publishes to a channel. -/
def publishedTo (chan : String) : Command F → Option String
  | .publish req => if req.chan = chan then some req.value else none
  | _ => none

omit [Storage σ (Command F)] in
theorem messages_announce (p : PubSub) (cmd : Command F) (chan : String) :
    (announce p cmd).messages chan = p.messages chan ++ (publishedTo chan cmd).toList := by
  cases cmd with
  | publish req =>
    rw [announce, publishedTo]
    split
    · rename_i h
      subst h
      exact p.messages_publish req.chan req.value
    · rename_i h
      exact (p.messages_publish_of_ne req.value h).trans (List.append_nil _).symm
  | _ => exact (List.append_nil _).symm

variable {num shard} {cfg : Config n σ (Command F)} {s s' : Deployment n σ F}

/-- The messages are those of the commands that were applied, and the subscribers get them. -/
structure Inv (s : Deployment n σ F) : Prop where
  applied : ∀ v, s.applied v ≤ (s.service.executed v).length
  messages : ∀ v chan, (s.pubsub v).messages chan =
    ((s.service.executed v).take (s.applied v)).filterMap (publishedTo chan)
  follows : ∀ v, ∀ sub ∈ (s.pubsub v).subscribers, (s.pubsub v).Follows sub

theorem Inv.start (store : Fin n → Datastore F) : Inv (Deployment.start cfg store) where
  applied _ := Nat.zero_le _
  messages _ _ := rfl
  follows _ _ hsub := absurd hsub List.not_mem_nil

omit [Storage σ (Command F)] in
/-- A subscription, or a task that goes on. -/
theorem Inv.onPubSub (h : Inv s) {i : Fin n} {a : PubSub.Act}
    (ha : ∀ chan value, a ≠ .publish chan value) (hs : s.onPubSub i a = some s') : Inv s' := by
  obtain ⟨p, hp, rfl⟩ := Option.map_eq_some_iff.mp hs
  have hlog : p.log = (s.pubsub i).log := by
    cases a with
    | subscribe chan =>
      obtain rfl := Option.some_inj.mp hp
      rfl
    | publish chan value => exact absurd rfl (ha chan value)
    | relay k =>
      obtain ⟨sub, ring, -, -, -, ⟨msg, l, -, rfl⟩ | ⟨l, -, rfl⟩⟩ := PubSub.relay_cases hp
      · rfl
      · rfl
    | wrap k =>
      obtain ⟨sub, -, hp⟩ := Option.bind_eq_some_iff.mp hp
      split at hp
      · cases hp
      · obtain rfl := Option.some_inj.mp hp
        rfl
  refine ⟨h.applied, fun v chan ↦ ?_, fun v ↦ ?_⟩
  · rw [← h.messages v chan]
    by_cases hv : v = i
    · subst hv
      simp only [Function.update_self, PubSub.messages, hlog]
    · simp only [Function.update_of_ne hv]
  · by_cases hv : v = i
    · subst hv
      simp only [Function.update_self]
      exact PubSub.follows_step (h.follows v) hp
    · simp only [Function.update_of_ne hv]
      exact h.follows v

omit [Storage σ (Command F)] in
/-- The service goes on. -/
theorem Inv.service (h : Inv s) {t : Service n σ F}
    (ht : ∀ v, s.service.executed v <+: t.executed v) : Inv { s with service := t } where
  applied v := (h.applied v).trans (ht v).length_le
  messages v chan := by
    rw [h.messages v chan]
    obtain ⟨more, hmore⟩ := ht v
    rw [← hmore, List.take_append_of_le_length (h.applied v)]
  follows := h.follows

omit [Storage σ (Command F)] in
theorem follows_announce {p : PubSub} (h : ∀ sub ∈ p.subscribers, p.Follows sub)
    (cmd : Command F) : ∀ sub ∈ (announce p cmd).subscribers, (announce p cmd).Follows sub := by
  cases cmd with
  | publish req => exact fun sub hsub ↦ (h sub hsub).publish hsub req.chan req.value
  | _ => exact h

theorem Inv.apply (h : Inv s) {i : Fin n} (hs : s.step num shard (.apply i) = some s') :
    Inv s' := by
  obtain ⟨cmd, hcmd, rfl⟩ := Option.map_eq_some_iff.mp hs
  have hlt : s.applied i < (s.service.executed i).length := (List.getElem?_eq_some_iff.mp hcmd).1
  refine ⟨fun v ↦ ?_, fun v chan ↦ ?_, fun v ↦ ?_⟩
  · by_cases hv : v = i
    · subst hv
      simp only [Function.update_self]
      exact hlt
    · simp only [Function.update_of_ne hv]
      exact h.applied v
  · by_cases hv : v = i
    · subst hv
      simp only [Function.update_self]
      rw [messages_announce, h.messages v chan, List.take_add_one, hcmd, List.filterMap_append]
      cases hp : publishedTo chan cmd with
      | none => simp [hp]
      | some x => simp [hp]
    · simp only [Function.update_of_ne hv]
      exact h.messages v chan
  · by_cases hv : v = i
    · subst hv
      simp only [Function.update_self]
      exact follows_announce (h.follows v) cmd
    · simp only [Function.update_of_ne hv]
      exact h.follows v

theorem Inv.step (h : Inv s) {a : Act n σ F} (hs : s.step num shard a = some s') : Inv s' := by
  have hservice : ∀ {b : Service.Act n σ F}, (s.service.step num shard b).map
      (fun t ↦ { s with service := t }) = some s' → Inv s' := by
    intro b hb
    obtain ⟨t, ht, rfl⟩ := Option.map_eq_some_iff.mp hb
    exact h.service fun v ↦ Service.executed_step ht v
  cases a with
  | service b =>
    cases b with
    | recv i =>
      rw [Deployment.step] at hs
      split at hs
      · exact hservice hs
      · cases hs
    | _ => exact hservice hs
  | apply i => exact h.apply hs
  | subscribe i chan => exact h.onPubSub (by simp) hs
  | relay i k => exact h.onPubSub (by simp) hs
  | wrap i k => exact h.onPubSub (by simp) hs

end Deployment

end Efis
