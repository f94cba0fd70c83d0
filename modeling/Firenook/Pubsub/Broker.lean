import Firenook.Pubsub.Subscription

/-!
# Pubsub — Broker

The broker's transitions (`broker.rs`). A request runs the transitions of one subscription over its
entry, the holder counts of its topic generation and the snapshots (`Ctx`), then applies what they
caused elsewhere: acknowledged copies that nothing keeps any more are dropped at the peers, and dead
letters are published to their topic (`State.apply`). Left out are the history rings, the schemas and
the console's figures, which no transition of a message reads; the messages a ring seeds a new
subscription with are given.
-/

namespace Firenook.Pubsub

open Std

/-- Who holds a message of a shared generation. -/
structure Holders where
  unacked : Nat := 0
  keptForPeers : List Nat := []

structure Generation where
  members : ExtTreeSet Text := ∅
  snapshots : Nat := 0
  holders : ExtTreeMap Nat Holders := ∅

def Generation.shared (g : Generation) : Bool := 2 ≤ g.members.size

def Generation.setHolders (g : Generation) (id : Nat) (h : Holders) : Generation :=
  { g with holders := g.holders.insert id h }

structure SnapshotEntry where
  topic : Text
  topicGeneration : Nat
  unacked : ExtTreeSet Nat
  created : Instant

abbrev Snapshots := ExtTreeMap Text SnapshotEntry

/-- What a subscription's transitions cause elsewhere. -/
structure Effects where
  released : List (Nat × List Nat) := []
  forwarded : List (Text × StoredMessage × Nat) := []

/-- One subscription's transitions. -/
structure Ctx where
  name : Text
  entry : SubscriptionEntry
  generation : Option Generation
  snapshots : Snapshots
  nextSequence : Nat
  effects : Effects := {}

def second : Nat := 1000000

namespace Ctx

/-- The tracked message changed by `SubscriptionEntry::update`. -/
def update (c : Ctx) (id : Nat) (change : Tracked → Tracked) : Ctx :=
  { c with entry := c.entry.update id change }

def setState (c : Ctx) (id : Nat) (state : MessageState) : Ctx :=
  c.update id fun t => { t with state }

/-! ### Holders -/

def hold (c : Ctx) (id : Nat) : Ctx :=
  { c with generation := c.generation.map fun g =>
      if g.shared then
        let h := g.holders[id]?.getD {}
        g.setHolders id ⟨h.unacked + 1, h.keptForPeers.filter (· ≠ c.entry.slot)⟩
      else g }

/-- One unacknowledged holder fewer; whether another subscription still holds the message. -/
def letGo (c : Ctx) (id : Nat) : Bool × Ctx :=
  match c.generation with
  | none => (false, c)
  | some g =>
    if !g.shared then (false, c)
    else match g.holders[id]? with
      | none => (false, c)
      | some h =>
        if 0 < h.unacked - 1 then
          (true, { c with
            generation := some (g.setHolders id { h with unacked := h.unacked - 1 }) })
        else
          (false, { c with
            generation := some { g with holders := g.holders.erase id }
            effects := if h.keptForPeers.isEmpty then c.effects else { c.effects with
              released := c.effects.released ++ [(id, h.keptForPeers)] } })

def peersHold (c : Ctx) (id : Nat) : Bool :=
  c.generation.any fun g => g.shared && g.holders[id]?.any fun h => 0 < h.unacked

def keepForPeers (c : Ctx) (id : Nat) : Ctx :=
  { c with generation := c.generation.map fun g =>
      match g.holders[id]? with
      | none => g
      | some h =>
        if h.keptForPeers.contains c.entry.slot then g
        else g.setHolders id { h with keptForPeers := h.keptForPeers ++ [c.entry.slot] } }

def forgetPeerCopy (c : Ctx) (id : Nat) : Ctx :=
  { c with generation := c.generation.map fun g =>
      match g.holders[id]? with
      | none => g
      | some h => g.setHolders id
          { h with keptForPeers := h.keptForPeers.filter (· ≠ c.entry.slot) } }

/-- Whether a snapshot of the generation would revive the message. -/
def snapshotKeeps (c : Ctx) (id : Nat) : Bool :=
  c.generation.any (fun g => g.snapshots ≠ 0) &&
    c.entry.messages[id]?.any fun t => c.snapshots.toList.any fun snapshot =>
      snapshot.2.topicGeneration = c.entry.topicGeneration &&
        (snapshot.2.unacked.contains id || snapshot.2.created < t.message.published)

def keepsItself (c : Ctx) (id : Nat) : Bool :=
  c.entry.subscription.retainAckedMessages || c.snapshotKeeps id

/-! ### Transitions -/

/-- Starts tracking a published message, unless the filter refuses it. -/
def track (c : Ctx) (now : Instant) (message : StoredMessage) : Ctx :=
  if !c.entry.filter message.message || c.entry.messages.contains message.id then c
  else
    let state := if c.entry.isPush then .pushing now else .available
    hold { c with entry := c.entry.insert { message, state, sequence := message.id } } message.id

def findLease (c : Ctx) (ack : Nat) : Option Nat := c.entry.index.acks[ack]?

/-- The available messages a pull takes, in delivery order. -/
def chosen (c : Ctx) (maxMessages : Nat) : List Nat :=
  let held (id : Nat) : Bool := c.entry.subscription.enableMessageOrdering &&
    c.entry.messages[id]?.any fun t => !t.message.message.orderingKey.isEmpty &&
      c.entry.index.leasedKeys.contains t.message.message.orderingKey
  ((c.entry.index.available.toList.filter fun p => !held p.id).take maxMessages).map Position.id

/-- `take`: leases the chosen messages with the ack ids from `ack` on. -/
def take (c : Ctx) (maxMessages ack : Nat) (now : Instant) : Nat × Ctx :=
  let deadline := now + c.entry.subscription.ackDeadlineSeconds * second
  (c.chosen maxMessages).foldl (fun r id => (r.1 + 1, r.2.update id fun t =>
    { t with attempts := t.attempts + 1, state := .leased r.1 deadline })) (ack, c)

def countAcked (c : Ctx) : Ctx :=
  { c with entry := { c.entry with ackedTotal := c.entry.ackedTotal + 1 } }

/-- The copy of an acknowledged message stays only while something can bring it back. -/
def settleCopy (c : Ctx) (peers : Bool) (id : Nat) : Ctx :=
  if peers then c.keepForPeers id
  else if !c.keepsItself id then { c with entry := c.entry.remove id }
  else c

def acknowledge (c : Ctx) (id : Nat) : Ctx :=
  match c.entry.messages[id]? with
  | none => c
  | some t =>
    let c := c.setState id .acked
    if !t.unacked then c
    else
      let letGo := c.countAcked.letGo id
      letGo.2.settleCopy letGo.1 id

/-- What a lease that ends makes of its message. -/
def delivered (c : Ctx) (now : Instant) : MessageState :=
  if c.entry.isPush then .pushing now else .available

/-- `remove`: lets go of a message. -/
def remove (c : Ctx) (id : Nat) : Ctx :=
  match c.entry.messages[id]? with
  | none => c
  | some t =>
    let c := { c with entry := c.entry.remove id }
    if t.unacked then (c.letGo id).2 else c.forgetPeerCopy id

/-- A nack makes the message available again or dead-letters it; any other value extends the
lease. -/
def modifyDeadline (c : Ctx) (id seconds : Nat) (now : Instant) : Ctx :=
  match c.entry.messages[id]? with
  | none => c
  | some t =>
    match t.state with
    | .leased ack _ =>
      if seconds ≠ 0 then c.setState id (.leased ack (now + seconds * second))
      else if c.entry.subscription.deadLetterPolicy.any
          fun policy => policy.maxDeliveryAttempts ≤ t.attempts then
        remove { c with
          effects := { c.effects with
            forwarded := c.effects.forwarded ++ [(c.name, t.message, t.attempts)] }
          entry := { c.entry with deadLetteredTotal := c.entry.deadLetteredTotal + 1 } } id
      else
        let c' := c.update id fun t => { t with
          sequence := c.nextSequence, state := c.delivered now }
        { c' with nextSequence := c.nextSequence + 1 }
    | _ => c

/-- Makes a message deliverable again from its first attempt. -/
def revive (c : Ctx) (id : Nat) (now : Instant) : Ctx :=
  match c.entry.messages[id]? with
  | none => c
  | some t =>
    let c' := c.update id fun t => { t with state := c.delivered now, attempts := 0 }
    if t.unacked then c' else c'.hold id

def setPush (c : Ctx) (id : Nat) (at' : Instant) (attempts : Nat) : Ctx :=
  c.update id fun t =>
    match t.state with
    | .pushing _ => { t with state := .pushing at', pushAttempts := t.pushAttempts + attempts }
    | _ => t

def handOutPush (c : Ctx) (id : Nat) (hold : Instant) : Ctx := c.setPush id hold 1

def setNextPush (c : Ctx) (id : Nat) (at' : Instant) : Ctx := c.setPush id at' 0

/-- A new endpoint takes the available messages, a removed one gives the pushing ones back. -/
def switchDelivery (c : Ctx) (wasPush : Bool) (now : Instant) : Ctx :=
  if c.entry.isPush && !wasPush then
    c.entry.index.available.toList.foldl (fun c p => c.setState p.id (.pushing now)) c
  else if wasPush && !c.entry.isPush then
    c.entry.index.pushDue.toList.foldl (fun c p => c.setState p.id .available) c
  else c

def dropAcked (c : Ctx) (id : Nat) : Ctx :=
  if c.entry.messages.contains id then
    forgetPeerCopy { c with entry := c.entry.remove id } id
  else c

/-- An acknowledged copy whose reason to stay may have gone. -/
def reconsider (c : Ctx) (id : Nat) : Ctx :=
  if c.entry.messages[id]?.all Tracked.unacked then c
  else if c.peersHold id then c.keepForPeers id
  else if !c.keepsItself id then c.dropAcked id
  else c

def reconsiderAll (c : Ctx) : Ctx := c.entry.index.acked.toList.foldl reconsider c

/-- Drops retained acknowledgements past the retention, then the oldest past `cap`. -/
def pruneRetained (c : Ctx) (now : Instant) (cap : Nat) : Ctx :=
  let acked := c.entry.index.acked.toList
  let retention := c.entry.subscription.messageRetentionDuration.getD 604800 * second
  let expired := (acked.takeWhile fun id =>
    c.entry.messages[id]?.all fun t => retention < now - t.message.published).filter
      (c.entry.messages.contains ·)
  let excess := (acked.drop expired.length).take (acked.length - expired.length - cap)
  (expired ++ excess).foldl dropAcked c

/-- Lets go of everything before the subscription is deleted. -/
def leave (c : Ctx) : Ctx :=
  let c := c.entry.index.unacked.toList.foldl (fun c id => (c.letGo id).2) c
  c.entry.index.acked.toList.foldl forgetPeerCopy c

end Ctx

structure Topic where
  generation : Nat

structure State where
  topics : ExtTreeMap Text Topic := ∅
  subscriptions : ExtTreeMap Text SubscriptionEntry := ∅
  snapshots : Snapshots := ∅
  generations : ExtTreeMap Nat Generation := ∅
  slots : ExtTreeMap Nat Text := ∅
  nextSlot : Nat := 1
  nextMessageId : Nat := 1
  nextAck : Nat := 1
  nextGeneration : Nat := 1
  nextSequence : Nat := 2 ^ 40
  nextSlowTick : Instant := 0
  retainedAcked : Nat := 100000
  -- The pushes handed out and not finished, by subscription.
  inFlight : ExtTreeMap Text (ExtTreeSet Nat) := ∅
  -- What was published, and to which topic.
  published : List (Text × StoredMessage) := []

/-! ### Running one subscription's transitions -/

section Running
variable {R : Type}

namespace State

/-- What the transitions of a subscription work on. -/
def ctx (s : State) (name : Text) (entry : SubscriptionEntry) : Ctx :=
  { name, entry
    generation := s.generations[entry.topicGeneration]?
    snapshots := s.snapshots
    nextSequence := s.nextSequence }

/-- The state with a subscription's finished transitions in it. -/
def settle (s : State) (name : Text) (generation : Nat) (c : Ctx) : State :=
  { s with
    subscriptions := s.subscriptions.insert name c.entry
    generations := c.generation.elim s.generations (s.generations.insert generation)
    nextSequence := c.nextSequence }

/-- The transitions of one subscription, with what they cause elsewhere. -/
def run (s : State) (name : Text) (work : Ctx → R × Ctx) : Option (R × Effects × State) :=
  s.subscriptions[name]?.map fun entry =>
    let done := work (s.ctx name entry)
    (done.1, done.2.effects, s.settle name entry.topicGeneration done.2)

/-- Transitions that cause nothing elsewhere. -/
def runQuietly (s : State) (name : Text) (work : Ctx → Ctx) : State :=
  (s.run name fun c => ((), work c)).elim s fun done => done.2.2

/-- `deliver`: every subscription of the topic's generation tracks the messages. -/
def deliver (s : State) (topic : Text) (messages : List StoredMessage) (now : Instant) : State :=
  match s.topics[topic]? with
  | none => s
  | some t =>
    let members := s.generations[t.generation]?.elim [] fun g => g.members.toList
    let s' := members.foldl (fun s name => s.runQuietly name fun c =>
      if c.entry.topicDeleted then c else messages.foldl (fun c m => c.track now m) c) s
    { s' with published := s'.published ++ messages.map fun m => (topic, m) }

end State

/-! ### Names -/

def isAlphabetic (b : UInt8) : Bool := (65 ≤ b && b ≤ 90) || (97 ≤ b && b ≤ 122)

/-- `valid_id`: 3 to 255 characters of a fixed set, a letter first, not starting with `goog`. -/
def validId (id : Text) : Bool :=
  3 ≤ id.length && id.length ≤ 255 && id.head?.any isAlphabetic &&
    !(ascii "goog").isPrefixOf id &&
    id.all fun b => isAlphabetic b || (48 ≤ b && b ≤ 57) || (ascii "-_.~+%").contains b

structure ResourceName where
  project : Text
  id : Text

/-- `names::parse`: `projects/{project}/{collection}/{id}`. -/
def parseName (collection name : Text) : Option ResourceName :=
  match segments name with
  | [projects, project, found, id] =>
    if projects = ascii "projects" ∧ found = collection ∧ validId id then some ⟨project, id⟩ else none
  | _ => none

variable (rfc3339Millis : Nat → Text)

/-- The copy of a dead letter, with where it comes from in its attributes. -/
def deadLetterCopy (subscription : Text) (m : StoredMessage) (attempts id : Nat) (now : Instant)
    (wall : Nat) : StoredMessage :=
  let parsed := parseName (ascii "subscriptions") subscription
  let attributes := (((m.message.attributes.insert
    (ascii "CloudPubSubDeadLetterSourceDeliveryCount") (ascii (toString attempts))).insert
    (ascii "CloudPubSubDeadLetterSourceSubscription") ((parsed.map (·.id)).getD [])).insert
    (ascii "CloudPubSubDeadLetterSourceSubscriptionProject") ((parsed.map (·.project)).getD [])).insert
    (ascii "CloudPubSubDeadLetterSourceTopicPublishTime") (rfc3339Millis m.publishedAt)
  let message := { m.message with attributes }
  { id, message, published := now, publishedAt := wall, size := messageSize message }

namespace State

/-- One dead letter: nothing is published when the policy or its topic is gone. -/
def forwardDeadLetter (s : State) (now : Instant) (wall : Nat)
    (letter : Text × StoredMessage × Nat) : State :=
  match s.subscriptions[letter.1]?.bind (·.subscription.deadLetterPolicy) with
  | none => s
  | some policy =>
    if !s.topics.contains policy.deadLetterTopic then s
    else
      let copy := deadLetterCopy rfc3339Millis letter.1 letter.2.1 letter.2.2 s.nextMessageId now wall
      deliver { s with nextMessageId := s.nextMessageId + 1 } policy.deadLetterTopic [copy] now

/-- The copies of a released message at the slots that kept them. -/
def release (s : State) (released : Nat × List Nat) : State :=
  released.2.foldl (fun s slot => s.slots[slot]?.elim s fun peer =>
    s.runQuietly peer fun c => c.reconsider released.1) s

/-- `apply`: peers' copies first, then dead letters. -/
def apply (s : State) (now : Instant) (wall : Nat) (effects : Effects) : State :=
  effects.forwarded.foldl (fun s letter => s.forwardDeadLetter rfc3339Millis now wall letter)
    (effects.released.foldl release s)

def withSubscription (s : State) (name : Text) (now : Instant) (wall : Nat) (work : Ctx → R × Ctx) :
    Option (R × State) :=
  (s.run name work).map fun done => (done.1, done.2.2.apply rfc3339Millis now wall done.2.1)

/-- `with_subscription` for its effect on the state. -/
def within (s : State) (name : Text) (now : Instant) (wall : Nat) (work : Ctx → Ctx) : State :=
  (s.withSubscription rfc3339Millis name now wall fun c => ((), work c)).elim s Prod.snd

end State

end Running

end Firenook.Pubsub
