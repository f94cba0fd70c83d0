import Firenook.Pubsub.Broker

/-!
# Pubsub — Operations

The broker's requests, its tick and the outcome of a push, as one step function over its state. A
refused request leaves the state as it is.
-/

namespace Firenook.Pubsub

inductive Code where
  | invalidArgument
  | notFound
  | alreadyExists
  | failedPrecondition
  | outOfRange

structure PubsubError where
  code : Code
  message : Text

/-- A request's answer: an error can come with a changed state. -/
structure Reply where
  state : State
  error : Option PubsubError := none

def Reply.ok (s : State) : Reply := { state := s }

/-- A request refused before it changed anything. -/
def State.refuse (s : State) (code : Code) (message : Text) : Reply :=
  { state := s, error := some ⟨code, message⟩ }

def invalidName (collection name : Text) : Text :=
  ascii "Invalid [" ++ collection ++ ascii "] name: (name=" ++ name ++ ascii ")"

/-- Goes on with a request whose name is well formed. -/
def State.named (s : State) (collection name : Text) (request : Reply) : Reply :=
  if (parseName collection name).isSome then request
  else s.refuse .invalidArgument (invalidName collection name)

def topicNames : Text := ascii "topics"

def subscriptionNames : Text := ascii "subscriptions"

def snapshotNames : Text := ascii "snapshots"

/-- The name a deleted topic leaves on its subscriptions. -/
def deletedTopic : Text := ascii "_deleted-topic_"

def minRetentionSeconds : Nat := 600

def maxRetentionSeconds : Nat := 604800

def defaultRetentionSeconds : Nat := 604800

def retentionOutOfBounds (retention : Option Nat) : Bool :=
  retention.any fun seconds => seconds < minRetentionSeconds || maxRetentionSeconds < seconds

namespace State

/-! ### Topics and subscriptions -/

def createTopic (s : State) (name : Text) (retention : Option Nat) : Reply :=
  s.named topicNames name <|
    if s.topics.contains name then s.refuse .alreadyExists (ascii "Topic already exists")
    else if retentionOutOfBounds retention then
      s.refuse .invalidArgument (ascii "message_retention_duration out of bounds")
    else .ok ({ s with
      topics := s.topics.insert name ⟨s.nextGeneration⟩
      generations := s.generations.insert s.nextGeneration {}
      nextGeneration := s.nextGeneration + 1 })

/-- A generation without members, snapshots or a topic is forgotten. -/
def forgetGenerationIfUnused (s : State) (generation : Nat) : State :=
  if s.generations[generation]?.any (fun g => g.members.isEmpty && g.snapshots = 0) &&
      !s.topics.toList.any (fun t => t.2.generation = generation) then
    { s with generations := s.generations.erase generation }
  else s

/-- The mark a deleted topic leaves on a subscription of its generation. -/
def detach (generation : Nat) (e : SubscriptionEntry) : SubscriptionEntry :=
  if e.topicGeneration = generation then
    { e with topicDeleted := true, subscription := { e.subscription with topic := deletedTopic } }
  else e

def deleteTopic (s : State) (name : Text) : Reply :=
  s.named topicNames name <|
    match s.topics[name]? with
    | none => s.refuse .notFound (ascii "Topic not found")
    | some topic => .ok (forgetGenerationIfUnused { s with
        topics := s.topics.erase name
        subscriptions := s.subscriptions.map fun _ e => detach topic.generation e } topic.generation)

/-- The messages of a publish with their ids. -/
def stored (s : State) (messages : List Message) (now : Instant) (wall : Nat) : List StoredMessage :=
  messages.zipIdx.map fun m => {
    id := s.nextMessageId + m.2, message := m.1, published := now, publishedAt := wall
    size := messageSize m.1 }

def publish (s : State) (topic : Text) (messages : List Message) (now : Instant) (wall : Nat) :
    Reply :=
  s.named topicNames topic <|
    if !s.topics.contains topic then s.refuse .notFound (ascii "Topic not found")
    else if messages.isEmpty then s.refuse .invalidArgument (ascii "No messages to publish")
    else if messages.any fun m => m.data.isEmpty && m.attributes.isEmpty then
      s.refuse .invalidArgument (ascii "Some messages are empty")
    else .ok (deliver { s with nextMessageId := s.nextMessageId + messages.length } topic
      (s.stored messages now wall) now)

def attemptsTooSmall (attempts : Nat) : Text :=
  ascii "The value for max_delivery_attempts is too small. You passed " ++
    ascii (toString attempts) ++ ascii " in the request, but the minimum value is 5."

def attemptsTooLarge (attempts : Nat) : Text :=
  ascii "The value for max_delivery_attempts is too large. You passed " ++
    ascii (toString attempts) ++ ascii " in the request, but the maximum value is 100."

/-- The dead-letter part of `validated_subscription`. -/
def validatedPolicy (s : State) (policy : DeadLetterPolicy) : Except PubsubError DeadLetterPolicy :=
  let attempts := if policy.maxDeliveryAttempts = 0 then 5 else policy.maxDeliveryAttempts
  if (parseName topicNames policy.deadLetterTopic).isNone ||
      !s.topics.contains policy.deadLetterTopic then
    .error ⟨.notFound, ascii "Dead letter topic not found"⟩
  else if attempts < 5 then .error ⟨.outOfRange, attemptsTooSmall attempts⟩
  else if 100 < attempts then .error ⟨.outOfRange, attemptsTooLarge attempts⟩
  else .ok { policy with maxDeliveryAttempts := attempts }

/-- The defaults of `validated_subscription`. -/
def withDefaults (x : Settings) : Settings := { x with
  ackDeadlineSeconds := if x.ackDeadlineSeconds = 0 then 10 else x.ackDeadlineSeconds
  messageRetentionDuration := some (x.messageRetentionDuration.getD defaultRetentionSeconds) }

/-- `validated_subscription`: defaults filled in, bounds checked. -/
def validatedSubscription (s : State) (x : Settings) : Except PubsubError Settings :=
  if 600 < (withDefaults x).ackDeadlineSeconds then
    .error ⟨.invalidArgument, ascii "ack_deadline_secs out of bounds"⟩
  else if retentionOutOfBounds x.messageRetentionDuration then
    .error ⟨.invalidArgument, ascii "message_retention_duration out of bounds"⟩
  else match x.deadLetterPolicy with
    | none => .ok (withDefaults x)
    | some policy => (s.validatedPolicy policy).map fun policy =>
      { withDefaults x with deadLetterPolicy := some policy }

/-- The next slot no subscription has. -/
def freeSlot (s : State) : Nat → Nat → Nat
  | 0, slot => slot
  | fuel + 1, slot =>
    if slot = 0 ∨ s.slots.contains slot then s.freeSlot fuel ((slot + 1) % 2 ^ 32) else slot

def newSubscription (x : Settings) (topicGeneration slot : Nat) (filter : Message → Bool) :
    SubscriptionEntry :=
  { subscription := x, topicGeneration, originalTopic := x.topic, slot, filter }

/-- `add_subscription`: from the second subscription of a generation on, who holds what is counted. -/
def addSubscription (s : State) (x : Settings) (generation : Nat) (filter : Message → Bool) : State :=
  -- One of as many slots as are taken, zero and one more is free.
  let slot := s.freeSlot (s.slots.size + 2) s.nextSlot
  let g := s.generations[generation]?.getD {}
  let existing := if g.members.size = 1 then g.members.min?.bind (s.subscriptions[·]?) else none
  let g := existing.elim g fun e => e.index.unacked.toList.foldl (fun g id =>
    let h := g.holders[id]?.getD {}
    g.setHolders id { h with unacked := h.unacked + 1 }) g
  { s with
    subscriptions := s.subscriptions.insert x.name (newSubscription x generation slot filter)
    slots := s.slots.insert slot x.name
    nextSlot := (slot + 1) % 2 ^ 32
    generations := s.generations.insert generation { g with members := g.members.insert x.name } }

/-- `create_subscription`; the seeds are what the topic's ring keeps inside its retention. -/
def createSubscription (s : State) (x : Settings) (filter : Message → Bool)
    (seeds : List StoredMessage) (now : Instant) : Reply :=
  s.named subscriptionNames x.name <| s.named topicNames x.topic <|
    match s.topics[x.topic]? with
    | none => s.refuse .notFound (ascii "Subscription topic does not exist")
    | some topic =>
      if s.subscriptions.contains x.name then
        s.refuse .alreadyExists (ascii "Subscription already exists")
      else match s.validatedSubscription x with
        | .error e => { state := s, error := some e }
        | .ok x =>
          .ok ((s.addSubscription x topic.generation filter).runQuietly x.name fun c =>
              seeds.foldl (fun c m => c.track now m) c)

end State

/-- The fields of an update mask with their new values. -/
structure SettingsUpdate where
  ackDeadlineSeconds : Option Nat := none
  pushEndpoint : Option Text := none
  retainAckedMessages : Option Bool := none
  messageRetentionDuration : Option (Option Nat) := none
  deadLetterPolicy : Option (Option DeadLetterPolicy) := none
  enableExactlyOnceDelivery : Option Bool := none

def SettingsUpdate.apply (u : SettingsUpdate) (x : Settings) : Settings :=
  { x with
    ackDeadlineSeconds := u.ackDeadlineSeconds.getD x.ackDeadlineSeconds
    pushEndpoint := u.pushEndpoint.getD x.pushEndpoint
    retainAckedMessages := u.retainAckedMessages.getD x.retainAckedMessages
    messageRetentionDuration := u.messageRetentionDuration.getD x.messageRetentionDuration
    deadLetterPolicy := u.deadLetterPolicy.getD x.deadLetterPolicy
    enableExactlyOnceDelivery := u.enableExactlyOnceDelivery.getD x.enableExactlyOnceDelivery }

/-- New settings, and what they change of the delivery and of the acknowledged copies. -/
def Ctx.reconfigure (c : Ctx) (x : Settings) (now : Instant) : Ctx :=
  let wasPush := c.entry.isPush
  let wasRetaining := c.entry.subscription.retainAckedMessages
  let c := switchDelivery { c with entry := { c.entry with subscription := x } } wasPush now
  if wasRetaining && !x.retainAckedMessages then c.reconsiderAll else c

/-- An ack id, `{owner}:{sequence}`. -/
structure AckId where
  owner : Text
  sequence : Nat

def AckId.text (ack : AckId) : Text := ack.owner ++ ascii ":" ++ ascii (toString ack.sequence)

/-- `parse_ack_ids`: every id belongs to the subscription. -/
def parseAckIds (subscription : Text) (acks : List AckId) : Except PubsubError (List Nat) :=
  match acks.find? fun ack => ack.owner ≠ subscription with
  | some ack => .error ⟨.invalidArgument,
      ascii "Subscription " ++ subscription ++ ascii " received an invalid ack ID " ++ ack.text ++
        ascii ", meant for subscription: " ++ ack.owner⟩
  | none => .ok (acks.map AckId.sequence)

inductive Event where
  | createTopic (name : Text) (retention : Option Nat)
  | deleteTopic (name : Text)
  | publish (topic : Text) (messages : List Message)
  | createSubscription (settings : Settings) (filter : Message → Bool) (seeds : List StoredMessage)
  | updateSubscription (name : Text) (update : SettingsUpdate)
  | deleteSubscription (name : Text)
  | modifyPushConfig (name endpoint : Text)
  | pull (name : Text) (maxMessages : Nat)
  | acknowledge (name : Text) (acks : List AckId)
  | modifyAckDeadline (name : Text) (acks : List AckId) (seconds : Int)
  | tick
  | pushFinished (name : Text) (id : Nat) (delivered : Bool)
  | seekToTime (name : Text) (target : Nat)
  | seekToSnapshot (name snapshot : Text)
  | createSnapshot (name subscription : Text)
  | deleteSnapshot (name : Text)
  | drain (name : Text)
  | reset
  -- The console's two.
  | forceAck (name : Text) (id : Nat)
  | release (name : Text) (id : Nat)

namespace Ctx

/-- Acknowledges the messages of live leases. -/
def acknowledgeAll (c : Ctx) (acks : List Nat) : Ctx :=
  acks.foldl (fun c ack => (c.findLease ack).elim c c.acknowledge) c

/-- Whether an ack id was stale when its turn came. -/
def anyStale (c : Ctx) : List Nat → Bool
  | [] => false
  | ack :: acks => (c.findLease ack).isNone || (c.acknowledgeAll [ack]).anyStale acks

def modifyDeadlines (c : Ctx) (acks : List Nat) (seconds : Nat) (now : Instant) : Ctx :=
  acks.foldl (fun c ack => (c.findLease ack).elim c fun id => c.modifyDeadline id seconds now) c

/-- Ends the leases that are due. -/
def expire (c : Ctx) (now : Instant) : Ctx :=
  ((c.entry.index.leases.toList.takeWhile fun p => p.rank ≤ now).map Position.id).foldl
    (fun c id => c.modifyDeadline id 0 now) c

def duePushes (c : Ctx) (flying : Std.ExtTreeSet Nat) (now : Instant) : List Nat :=
  if !c.entry.isPush then []
  else ((c.entry.index.pushDue.toList.takeWhile fun p => p.rank ≤ now).map Position.id).filter
    (!flying.contains ·)

/-- The outcome of a push, unless the message is no longer being pushed. -/
def finishPush (c : Ctx) (id : Nat) (delivered : Bool) (now : Instant) : Ctx :=
  match c.entry.messages[id]?.map Tracked.state with
  | some (.pushing _) => if delivered then c.acknowledge id else c.setNextPush id (now + second)
  | _ => c

/-- Everything published before the target counts as acknowledged; what was acknowledged comes back
only with `retain_acked_messages`. -/
def seekToTime (c : Ctx) (target : Nat) (now : Instant) : Ctx :=
  let retain := c.entry.subscription.retainAckedMessages
  c.entry.messages.toList.foldl (fun c m =>
    if target ≤ m.2.message.publishedAt then
      if !m.2.unacked && !retain then c else c.revive m.1 now
    else c.acknowledge m.1) c

/-- The snapshot decides over the messages the subscription tracks. -/
def seekToSnapshot (c : Ctx) (x : SnapshotEntry) (now : Instant) : Ctx :=
  c.entry.messages.toList.foldl (fun c m =>
    if x.unacked.contains m.1 || x.created < m.2.message.published then c.revive m.1 now
    else c.acknowledge m.1) c

/-- Takes everything. -/
def drain (c : Ctx) : Ctx := c.entry.messages.keys.foldl remove c

end Ctx

section Requests
variable (rfc3339Millis : Nat → Text) (now : Instant) (wall : Nat)

namespace State

def updateSubscription (s : State) (name : Text) (u : SettingsUpdate) : Reply :=
  s.named subscriptionNames name <|
    match s.subscriptions[name]? with
    | none => s.refuse .notFound (ascii "Subscription not found.")
    | some e =>
      match s.validatedSubscription (u.apply e.subscription) with
      | .error e => { state := s, error := some e }
      | .ok x => .ok (s.within rfc3339Millis name now wall (·.reconfigure x now))

/-- Goes on with a request for a subscription that exists. -/
def known (s : State) (name : Text) (request : SubscriptionEntry → Reply) : Reply :=
  s.named subscriptionNames name <|
    match s.subscriptions[name]? with
    | none => s.refuse .notFound (ascii "Subscription does not exist")
    | some e => request e

/-- What is left of the state once a subscription has let go of everything. -/
def withoutSubscription (s : State) (name : Text) (e : SubscriptionEntry) : State :=
  let generations := s.generations[e.topicGeneration]?.elim s.generations fun g =>
    let g := { g with members := g.members.erase name }
    s.generations.insert e.topicGeneration (if g.shared then g else { g with holders := ∅ })
  forgetGenerationIfUnused { s with
    subscriptions := s.subscriptions.erase name
    slots := s.slots.erase e.slot
    generations
    inFlight := s.inFlight.erase name } e.topicGeneration

def deleteSubscription (s : State) (name : Text) : Reply :=
  s.known name fun e =>
    .ok ((s.within rfc3339Millis name now wall Ctx.leave).withoutSubscription name e)

def modifyPushConfig (s : State) (name endpoint : Text) : Reply :=
  s.known name fun _ => .ok (s.within rfc3339Millis name now wall fun c =>
    c.reconfigure { c.entry.subscription with pushEndpoint := endpoint } now)

/-! ### Pull and ack -/

def pull (s : State) (name : Text) (maxMessages : Nat) : Reply :=
  s.known name fun e =>
    if e.subscription.detached then
      s.refuse .failedPrecondition (ascii "Subscription is detached.")
    else .ok ((s.withSubscription rfc3339Millis name now wall fun c =>
      c.take maxMessages s.nextAck now).elim s fun done => { done.2 with nextAck := done.1 })

/-- With exactly-once delivery a stale id is refused, after the others were acknowledged. -/
def acknowledge (s : State) (name : Text) (acks : List AckId) : Reply :=
  s.known name fun e =>
    if acks.isEmpty then s.refuse .invalidArgument (ascii "No ack ids specified.")
    else match parseAckIds name acks with
      | .error error => { state := s, error := some error }
      | .ok parsed =>
        { state := s.within rfc3339Millis name now wall (·.acknowledgeAll parsed)
          error := if e.subscription.enableExactlyOnceDelivery && (s.ctx name e).anyStale parsed
            then some ⟨.invalidArgument, []⟩ else none }

def modifyAckDeadline (s : State) (name : Text) (acks : List AckId) (seconds : Int) : Reply :=
  s.known name fun _ =>
    if acks.isEmpty then s.refuse .invalidArgument (ascii "No ack ids specified")
    else if seconds < 0 then
      s.refuse .invalidArgument (ascii "Ack deadline cannot be negative")
    else match parseAckIds name acks with
      | .error error => { state := s, error := some error }
      | .ok parsed => .ok (s.within rfc3339Millis name now wall
          (·.modifyDeadlines parsed seconds.toNat now))

/-- Expires leases, then hands out the pushes that are due and not in flight. -/
def tickOne (s : State) (name : Text) : State :=
  let flying := s.inFlight[name]?.getD ∅
  let work (c : Ctx) : List Nat × Ctx :=
    let c := c.expire now
    (c.duePushes flying now,
      (c.duePushes flying now).foldl (fun c id => c.handOutPush id (now + 90 * second)) c)
  (s.withSubscription rfc3339Millis name now wall work).elim s fun done =>
    { done.2 with inFlight := done.2.inFlight.insert name (done.1.foldl (·.insert ·) flying) }

/-- The once-a-second pass over the retained acknowledgements. -/
def prune (s : State) : State :=
  ((s.subscriptions.toList.filter fun e =>
    e.2.subscription.retainAckedMessages && 0 < e.2.index.counts.acked).map Prod.fst).foldl
      (fun s name => s.within rfc3339Millis name now wall (·.pruneRetained now s.retainedAcked)) s

/-- Whether a lease or a push of the subscription is due. -/
def due (e : SubscriptionEntry) : Bool :=
  e.index.leases.min?.any (·.rank ≤ now) || e.isPush && e.index.pushDue.min?.any (·.rank ≤ now)

/-- `tick_at`. -/
def tick (s : State) : State :=
  let names := (s.subscriptions.toList.filter fun e => due now e.2).map Prod.fst
  let s := names.foldl (fun s name => s.tickOne rfc3339Millis now wall name) s
  if s.nextSlowTick ≤ now then
    prune rfc3339Millis now wall { s with nextSlowTick := now + second }
  else s

/-- A push that is no longer in flight. -/
def landed (s : State) (name : Text) (id : Nat) : State :=
  { s with inFlight := s.inFlight[name]?.elim s.inFlight fun flying =>
      s.inFlight.insert name (flying.erase id) }

def pushFinished (s : State) (name : Text) (id : Nat) (delivered : Bool) : State :=
  (s.landed name id).within rfc3339Millis name now wall (·.finishPush id delivered now)

/-! ### Seek and snapshots -/

def seekToTime (s : State) (name : Text) (target : Nat) : Reply :=
  s.known name fun _ => .ok (s.within rfc3339Millis name now wall (·.seekToTime target now))

def topicsDiffer (subscriptionTopic snapshotTopic : Text) : Text :=
  ascii "The subscription's topic " ++ subscriptionTopic ++
    ascii " is different from that of the snapshot " ++ snapshotTopic ++
    ascii "; they must match in order for Seek work. Note that if a topic is deleted and then " ++
    ascii "re-created with the same name, it is considered a distinct topic for these purposes."

def seekToSnapshot (s : State) (name snapshot : Text) : Reply :=
  s.known name fun e => s.named snapshotNames snapshot <|
    match s.snapshots[snapshot]? with
    | none => s.refuse .notFound (ascii "Snapshot does not exist")
    | some x =>
      if e.topicDeleted || e.topicGeneration ≠ x.topicGeneration then
        s.refuse .failedPrecondition (topicsDiffer e.subscription.topic x.topic)
      else .ok (s.within rfc3339Millis name now wall (·.seekToSnapshot x now))

def createSnapshot (s : State) (name subscription : Text) : Reply :=
  s.named snapshotNames name <|
    match s.subscriptions[subscription]? with
    | none => s.refuse .notFound (ascii "Subscription does not exist")
    | some e =>
      if s.snapshots.contains name then
        s.refuse .alreadyExists (ascii "Snapshot already exists")
      else .ok ({ s with
        snapshots := s.snapshots.insert name
          ⟨e.originalTopic, e.topicGeneration, e.index.unacked, now⟩
        generations := s.generations[e.topicGeneration]?.elim s.generations fun g =>
          s.generations.insert e.topicGeneration { g with snapshots := g.snapshots + 1 } })

/-- `snapshot_removed`: what the snapshot kept is reconsidered. -/
def snapshotRemoved (s : State) (generation : Nat) : State :=
  match s.generations[generation]? with
  | none => s
  | some g =>
    let s := { s with generations :=
      s.generations.insert generation { g with snapshots := g.snapshots - 1 } }
    forgetGenerationIfUnused (g.members.toList.foldl (fun s member =>
      s.within rfc3339Millis member now wall Ctx.reconsiderAll) s) generation

def deleteSnapshot (s : State) (name : Text) : Reply :=
  s.named snapshotNames name <|
    match s.snapshots[name]? with
    | none => s.refuse .notFound (ascii "Snapshot does not exist")
    | some x => .ok (snapshotRemoved rfc3339Millis now wall
        { s with snapshots := s.snapshots.erase name } x.topicGeneration)

/-! ### Drain, reset and the console -/

def drain (s : State) (name : Text) : State := s.within rfc3339Millis name now wall Ctx.drain

/-- `reset`: ids keep counting. -/
def reset (s : State) : State :=
  { s with
    topics := ∅, subscriptions := ∅, snapshots := ∅, generations := ∅, slots := ∅, inFlight := ∅ }

def messageIs (id : Nat) (text : String) : Text :=
  ascii "Message " ++ ascii (toString id) ++ ascii text

def forceAck (s : State) (name : Text) (id : Nat) : Reply :=
  s.known name fun e =>
    match e.messages[id]? with
    | none => s.refuse .notFound (messageIs id " is not in this subscription's backlog.")
    | some t =>
      if !t.unacked then s.refuse .failedPrecondition
        (messageIs id " is already acknowledged on this subscription.")
      else .ok (s.within rfc3339Millis name now wall (·.acknowledge id))

/-- The console's `release` of a lease. -/
def releaseLease (s : State) (name : Text) (id : Nat) : Reply :=
  s.known name fun e =>
    match e.messages[id]? with
    | none => s.refuse .notFound (messageIs id " is not in this subscription's backlog.")
    | some t =>
      if t.state.ack.isNone then s.refuse .failedPrecondition
        (messageIs id " is not leased on this subscription.")
      else .ok (s.within rfc3339Millis name now wall (·.modifyDeadline id 0 now))

end State

/-- One request or tick handled. -/
def handle (s : State) : Event → Reply
  | .createTopic name retention => s.createTopic name retention
  | .deleteTopic name => s.deleteTopic name
  | .publish topic messages => s.publish topic messages now wall
  | .createSubscription settings filter seeds => s.createSubscription settings filter seeds now
  | .updateSubscription name update => s.updateSubscription rfc3339Millis now wall name update
  | .deleteSubscription name => s.deleteSubscription rfc3339Millis now wall name
  | .modifyPushConfig name endpoint => s.modifyPushConfig rfc3339Millis now wall name endpoint
  | .pull name maxMessages => s.pull rfc3339Millis now wall name maxMessages
  | .acknowledge name acks => s.acknowledge rfc3339Millis now wall name acks
  | .modifyAckDeadline name acks seconds =>
    s.modifyAckDeadline rfc3339Millis now wall name acks seconds
  | .tick => .ok (s.tick rfc3339Millis now wall)
  | .pushFinished name id delivered =>
    .ok (s.pushFinished rfc3339Millis now wall name id delivered)
  | .seekToTime name target => s.seekToTime rfc3339Millis now wall name target
  | .seekToSnapshot name snapshot => s.seekToSnapshot rfc3339Millis now wall name snapshot
  | .createSnapshot name subscription => s.createSnapshot now name subscription
  | .deleteSnapshot name => s.deleteSnapshot rfc3339Millis now wall name
  | .drain name => .ok (s.drain rfc3339Millis now wall name)
  | .reset => .ok (s.reset)
  | .forceAck name id => s.forceAck rfc3339Millis now wall name id
  | .release name id => s.releaseLease rfc3339Millis now wall name id

end Requests

end Firenook.Pubsub
