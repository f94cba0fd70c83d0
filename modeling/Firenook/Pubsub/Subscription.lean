import Firenook.Store.Name

/-!
# Pubsub — Subscription

One subscription of the broker (`broker.rs`): the messages it tracks, each available, leased, being
pushed or acknowledged, with the counts and indexes kept in step by the three writers `insert`,
`remove` and `update`. The writers keep the indexes that decide what is delivered and what may be let
go in step with the messages (`Indexed`).
-/

namespace Firenook.Pubsub

open Std Option ExtTreeMap

/-- Text as UTF-8 bytes. -/
abbrev Text := List UInt8

/-- Instants and system times, in ticks of their clocks. -/
abbrev Instant := Nat

structure Message where
  data : Text
  attributes : ExtTreeMap Text Text
  orderingKey : Text

/-- The bytes a message costs: data, attributes and ordering key. -/
def messageSize (m : Message) : Nat :=
  min (m.data.length + (m.attributes.toList.map fun a => a.1.length + a.2.length).sum +
    m.orderingKey.length) (2 ^ 32 - 1)

/-- One published message, shared by every subscription that received it. -/
structure StoredMessage where
  id : Nat
  message : Message
  published : Instant
  publishedAt : Nat
  size : Nat

inductive MessageState where
  | available
  | leased (ack : Nat) (deadline : Instant)
  | pushing (nextAttempt : Instant)
  | acked
  deriving DecidableEq

/-- The ack id of a lease. -/
def MessageState.ack : MessageState → Option Nat
  | .leased ack _ => some ack
  | _ => none

structure Tracked where
  message : StoredMessage
  state : MessageState
  attempts : Nat := 0
  pushAttempts : Nat := 0
  sequence : Nat

def Tracked.unacked (t : Tracked) : Bool := t.state ≠ .acked

def Tracked.key (t : Tracked) : Text := t.message.message.orderingKey

structure Counts where
  available : Nat := 0
  leased : Nat := 0
  pushing : Nat := 0
  acked : Nat := 0
  unackedBytes : Nat := 0
  redelivered : Nat := 0

/-- A place in an order: a sequence or a due time, then the message's id. -/
@[ext] structure Position where
  rank : Nat
  id : Nat
  deriving DecidableEq

namespace Position

instance : Ord Position := ⟨compareLex (compareOn rank) (compareOn id)⟩

instance : TransOrd Position :=
  inferInstanceAs (TransCmp (compareLex (compareOn rank) (compareOn id)))

instance : LawfulEqOrd Position := LexOrder.lawfulEqCmp_compareLex Position.ext

end Position

/-- A subscription's counts and indexes. -/
structure Index where
  counts : Counts := {}
  unacked : ExtTreeSet Nat := ∅
  available : ExtTreeSet Position := ∅
  leases : ExtTreeSet Position := ∅
  pushDue : ExtTreeSet Position := ∅
  acked : ExtTreeSet Nat := ∅
  acks : ExtTreeMap Nat Nat := ∅
  leasedKeys : ExtTreeMap Text (ExtTreeSet Nat) := ∅

namespace Index

/-- Files a lease under its message's ordering key. -/
def addLeasedKey (keys : ExtTreeMap Text (ExtTreeSet Nat)) (key : Text) (id : Nat) :
    ExtTreeMap Text (ExtTreeSet Nat) :=
  if key.isEmpty then keys else keys.insert key ((keys[key]?.getD ∅).insert id)

def removeLeasedKey (keys : ExtTreeMap Text (ExtTreeSet Nat)) (key : Text) (id : Nat) :
    ExtTreeMap Text (ExtTreeSet Nat) :=
  if key.isEmpty then keys
  else match keys[key]? with
    | none => keys
    | some leased =>
      if (leased.erase id).isEmpty then keys.erase key else keys.insert key (leased.erase id)

def addState (index : Index) (id : Nat) (t : Tracked) : Index :=
  match t.state with
  | .available => { index with
      counts := { index.counts with available := index.counts.available + 1 }
      available := index.available.insert ⟨t.sequence, id⟩ }
  | .leased ack deadline => { index with
      counts := { index.counts with leased := index.counts.leased + 1 }
      leases := index.leases.insert ⟨deadline, id⟩
      acks := index.acks.insert ack id
      leasedKeys := addLeasedKey index.leasedKeys t.message.message.orderingKey id }
  | .pushing nextAttempt => { index with
      counts := { index.counts with pushing := index.counts.pushing + 1 }
      pushDue := index.pushDue.insert ⟨nextAttempt, id⟩ }
  | .acked => { index with
      counts := { index.counts with acked := index.counts.acked + 1 }
      acked := index.acked.insert id }

def addUnacked (index : Index) (id : Nat) (t : Tracked) : Index :=
  if t.unacked then { index with
    unacked := index.unacked.insert id
    counts := { index.counts with
      unackedBytes := index.counts.unackedBytes + t.message.size
      redelivered := index.counts.redelivered + if 1 < t.attempts then 1 else 0 } }
  else index

/-- `Index::add`. -/
def add (index : Index) (id : Nat) (t : Tracked) : Index := (index.addState id t).addUnacked id t

def removeState (index : Index) (id : Nat) (t : Tracked) : Index :=
  match t.state with
  | .available => { index with
      counts := { index.counts with available := index.counts.available - 1 }
      available := index.available.erase ⟨t.sequence, id⟩ }
  | .leased ack deadline => { index with
      counts := { index.counts with leased := index.counts.leased - 1 }
      leases := index.leases.erase ⟨deadline, id⟩
      acks := index.acks.erase ack
      leasedKeys := removeLeasedKey index.leasedKeys t.message.message.orderingKey id }
  | .pushing nextAttempt => { index with
      counts := { index.counts with pushing := index.counts.pushing - 1 }
      pushDue := index.pushDue.erase ⟨nextAttempt, id⟩ }
  | .acked => { index with
      counts := { index.counts with acked := index.counts.acked - 1 }
      acked := index.acked.erase id }

def removeUnacked (index : Index) (id : Nat) (t : Tracked) : Index :=
  if t.unacked then { index with
    unacked := index.unacked.erase id
    counts := { index.counts with
      unackedBytes := index.counts.unackedBytes - t.message.size
      redelivered := index.counts.redelivered - if 1 < t.attempts then 1 else 0 } }
  else index

/-- `Index::remove`. -/
def remove (index : Index) (id : Nat) (t : Tracked) : Index :=
  (index.removeState id t).removeUnacked id t

end Index

structure DeadLetterPolicy where
  deadLetterTopic : Text
  maxDeliveryAttempts : Nat

/-- A subscription's settings. -/
structure Settings where
  name : Text
  topic : Text
  pushEndpoint : Text := []
  ackDeadlineSeconds : Nat := 10
  retainAckedMessages : Bool := false
  messageRetentionDuration : Option Nat := none
  deadLetterPolicy : Option DeadLetterPolicy := none
  enableMessageOrdering : Bool := false
  enableExactlyOnceDelivery : Bool := false
  detached : Bool := false

structure SubscriptionEntry where
  subscription : Settings
  topicGeneration : Nat
  originalTopic : Text
  topicDeleted : Bool := false
  -- Whether the filter passes a message.
  filter : Message → Bool := fun _ => true
  messages : ExtTreeMap Nat Tracked := ∅
  index : Index := {}
  ackedTotal : Nat := 0
  deadLetteredTotal : Nat := 0
  slot : Nat

namespace SubscriptionEntry

def isPush (e : SubscriptionEntry) : Bool := !e.subscription.pushEndpoint.isEmpty

def insert (e : SubscriptionEntry) (t : Tracked) : SubscriptionEntry :=
  let id := t.message.id
  let index := e.index.add id t
  { e with
    messages := e.messages.insert id t
    index := match e.messages[id]? with
      | some previous => index.remove id previous
      | none => index }

def remove (e : SubscriptionEntry) (id : Nat) : SubscriptionEntry :=
  match e.messages[id]? with
  | none => e
  | some t => { e with messages := e.messages.erase id, index := e.index.remove id t }

/-- `update`: the one place a tracked message changes. -/
def update (e : SubscriptionEntry) (id : Nat) (change : Tracked → Tracked) : SubscriptionEntry :=
  match e.messages[id]? with
  | none => e
  | some t => { e with
      messages := e.messages.insert id (change t)
      index := (e.index.remove id t).add id (change t) }

/-! ### What the writers keep -/

end SubscriptionEntry

namespace Index
variable {index : Index} {id : Nat} {t : Tracked} {key : Text}

/-- The leases filed under an ordering key. -/
def leased (index : Index) (key : Text) : ExtTreeSet Nat := index.leasedKeys[key]?.getD ∅

/-- One of the index's sets: a message belongs at some of the places with its id. -/
structure Files {β : Type} (set : Index → β → Prop) (place : β → Nat)
    (belongs : Tracked → β → Prop) : Prop where
  add : ∀ {index id t b}, set (index.add id t) b ↔ set index b ∨ place b = id ∧ belongs t b
  remove : ∀ {index id t b},
    set (index.remove id t) b ↔ set index b ∧ ¬(place b = id ∧ belongs t b)

theorem addUnacked_eq (index : Index) (id : Nat) (t : Tracked) :
    ∃ unacked counts, index.addUnacked id t = { index with unacked, counts } := by
  unfold addUnacked
  split <;> exact ⟨_, _, rfl⟩

theorem removeUnacked_eq (index : Index) (id : Nat) (t : Tracked) :
    ∃ unacked counts, index.removeUnacked id t = { index with unacked, counts } := by
  unfold removeUnacked
  split <;> exact ⟨_, _, rfl⟩

theorem files_acked :
    Files (fun index i => i ∈ index.acked) (fun i => i) fun t _ => t.state = .acked where
  add {index id t i} := by
    obtain ⟨_, _, h⟩ := addUnacked_eq (index.addState id t) id t
    rw [add, h, addState]
    cases t.state <;> simp [or_comm, eq_comm (a := i)]
  remove {index id t i} := by
    obtain ⟨_, _, h⟩ := removeUnacked_eq (index.removeState id t) id t
    rw [remove, h, removeState]
    cases t.state <;> simp [and_comm, eq_comm (a := i)]

theorem files_unacked :
    Files (fun index i => i ∈ index.unacked) (fun i => i) fun t _ => t.unacked = true where
  add {index id t i} := by
    have hste : (index.addState id t).unacked = index.unacked := by
      unfold addState
      split <;> rfl
    rw [add, addUnacked]
    split <;> simp [*, or_comm, eq_comm (a := i)]
  remove {index id t i} := by
    have hste : (index.removeState id t).unacked = index.unacked := by
      unfold removeState
      split <;> rfl
    rw [remove, removeUnacked]
    split <;> simp [*, and_comm, eq_comm (a := i)]

theorem files_available : Files (fun index p => p ∈ index.available) Position.id
      fun t p => t.state = .available ∧ t.sequence = p.rank where
  add {index id t p} := by
    obtain ⟨_, _, h⟩ := addUnacked_eq (index.addState id t) id t
    rw [add, h, addState]
    cases t.state <;> simp [Position.ext_iff, or_comm, and_comm, eq_comm (a := id)]
  remove {index id t p} := by
    obtain ⟨_, _, h⟩ := removeUnacked_eq (index.removeState id t) id t
    rw [remove, h, removeState]
    cases t.state <;> simp [Position.ext_iff, and_comm, eq_comm (a := id)]

theorem acks_add {a : Nat} :
    (index.add id t).acks[a]? = if t.state.ack = some a then some id else index.acks[a]? := by
  obtain ⟨_, _, h⟩ := addUnacked_eq (index.addState id t) id t
  rw [add, h, addState]
  cases t.state <;> simp [MessageState.ack, getElem?_insert]

theorem acks_remove {a : Nat} :
    (index.remove id t).acks[a]? = if t.state.ack = some a then none else index.acks[a]? := by
  obtain ⟨_, _, h⟩ := removeUnacked_eq (index.removeState id t) id t
  rw [remove, h, removeState]
  cases t.state <;> simp [MessageState.ack, getElem?_erase]

/-- A lease is filed under its key, and those that are filed stay. -/
theorem mem_leased_add {i : Nat} (h : i ∈ index.leased key ∨ i = id ∧ t.state.ack.isSome = true ∧
    t.key = key ∧ key ≠ []) : i ∈ (index.add id t).leased key := by
  obtain ⟨_, _, heq⟩ := addUnacked_eq (index.addState id t) id t
  rw [add, heq, addState]
  cases hste : t.state with
  | leased ack deadline =>
    simp only [leased, addLeasedKey] at h ⊢
    by_cases hkey : t.message.message.orderingKey = key
    · subst hkey
      split
      · next hemp =>
        refine h.resolve_right fun hsl => hsl.2.2.2 (List.isEmpty_iff.mp hemp)
      · rw [getElem?_insert_self, getD_some, ExtTreeSet.mem_insert]
        exact h.symm.imp (fun hsl => by simp [hsl.1]) fun hold => hold
    · have hold := h.resolve_right fun hsl => hkey hsl.2.2.1
      split
      · exact hold
      · simpa [getElem?_insert, hkey] using hold
  | _ => simpa [hste, MessageState.ack, leased] using h

/-- Only the lease of the message itself is taken out. -/
theorem mem_leased_remove {i : Nat} (h : i ∈ index.leased key) (hne : i ≠ id) :
    i ∈ (index.remove id t).leased key := by
  obtain ⟨_, _, heq⟩ := removeUnacked_eq (index.removeState id t) id t
  rw [remove, heq, removeState]
  cases t.state with
  | leased ack deadline =>
    simp only [leased, removeLeasedKey] at h ⊢
    split
    · exact h
    split
    · exact h
    next leases hls =>
    by_cases hkey : t.message.message.orderingKey = key
    · rw [← hkey, hls] at h
      have hmem : i ∈ leases.erase id := by simpa [Ne.symm hne] using h
      rw [if_neg fun hemp => ?_, hkey, getElem?_insert_self]
      · exact hmem
      · rw [ExtTreeSet.isEmpty_iff.mp hemp] at hmem
        simp at hmem
    · split
      · simpa [getElem?_erase, hkey] using h
      · simpa [getElem?_insert, hkey] using h
  | _ => exact h

end Index

namespace SubscriptionEntry
variable {e : SubscriptionEntry}

/-- The indexes are in step with the messages: the acknowledged, the unacknowledged and the available
ones are indexed exactly, an indexed ack id is a live lease's, and a lease is filed under its key. -/
structure Indexed (e : SubscriptionEntry) : Prop where
  acked : ∀ id : Nat, id ∈ e.index.acked ↔ ∃ t : Tracked, e.messages[id]? = some t ∧ t.state = .acked
  acks : ∀ ack id : Nat, e.index.acks[ack]? = some id →
    ∃ t : Tracked, e.messages[id]? = some t ∧ t.state.ack = some ack
  unacked : ∀ id : Nat,
    id ∈ e.index.unacked ↔ ∃ t : Tracked, e.messages[id]? = some t ∧ t.unacked = true
  available : ∀ p : Position, p ∈ e.index.available ↔
    ∃ t : Tracked, e.messages[p.id]? = some t ∧ t.state = .available ∧ t.sequence = p.rank
  leased : ∀ (id : Nat) (t : Tracked), e.messages[id]? = some t → t.state.ack.isSome = true →
    t.key ≠ [] → id ∈ e.index.leased t.key

/-- What a writer does with the message of one id. -/
structure Writes (e e' : SubscriptionEntry) (id : Nat) (old new : Option Tracked) : Prop where
  was : e.messages[id]? = old
  messages : ∀ i : Nat, e'.messages[i]? = if id = i then new else e.messages[i]?
  index : e'.index = new.elim (old.elim e.index (e.index.remove id))
    ((old.elim e.index (e.index.remove id)).add id)

section
variable {e' : SubscriptionEntry} {id : Nat} {old new : Option Tracked} (hw : Writes e e' id old new)

include hw

/-- A writer keeps each set of the index exact. -/
theorem Writes.files {β : Type} {set : Index → β → Prop} {place : β → Nat}
    {belongs : Tracked → β → Prop} (hf : Index.Files set place belongs)
    (h : ∀ b, set e.index b ↔ ∃ t : Tracked, e.messages[place b]? = some t ∧ belongs t b) (b : β) :
    set e'.index b ↔ ∃ t : Tracked, e'.messages[place b]? = some t ∧ belongs t b := by
  obtain ⟨hold, hms, hidx⟩ := hw
  rw [hidx, hms]
  by_cases hb : id = place b
  · rw [hb] at hold
    cases old <;> cases new <;> simp [hf.add, hf.remove, h b, hold, hb]
  · cases old <;> cases new <;> simp [hf.add, hf.remove, h b, hb, Ne.symm hb]

theorem Writes.indexed (h : e.Indexed) : e'.Indexed where
  acked := hw.files Index.files_acked h.acked
  unacked := hw.files Index.files_unacked h.unacked
  available := hw.files Index.files_available h.available
  acks ack i hi := by
    obtain ⟨hold, hms, hidx⟩ := hw
    rw [hidx] at hi
    -- Another message's ack id, which is still that of its lease.
    have hoth : (old.elim e.index (e.index.remove id)).acks[ack]? = some i →
        ∃ t : Tracked, e'.messages[i]? = some t ∧ t.state.ack = some ack := by
      intro hi
      have hlv : id ≠ i ∧ e.index.acks[ack]? = some i := by
        cases old with
        | none =>
          refine ⟨?_, hi⟩
          rintro rfl
          obtain ⟨t, ht, -⟩ := h.acks ack id hi
          cases hold.symm.trans ht
        | some t =>
          simp only [Option.elim, Index.acks_remove] at hi
          split at hi
          · cases hi
          next hne =>
          refine ⟨?_, hi⟩
          rintro rfl
          obtain ⟨t', ht', hack⟩ := h.acks ack id hi
          cases hold.symm.trans ht'
          exact hne hack
      rw [hms, if_neg hlv.1]
      exact h.acks ack i hlv.2
    cases new with
    | none => exact hoth hi
    | some t =>
      simp only [Option.elim, Index.acks_add] at hi
      split at hi
      · next hack =>
        cases hi
        exact ⟨t, by rw [hms, if_pos rfl], hack⟩
      · exact hoth hi
  leased i t ht hack hkey := by
    obtain ⟨hold, hms, hidx⟩ := hw
    rw [hms] at ht
    rw [hidx]
    split at ht
    · next heq =>
      subst ht
      exact Index.mem_leased_add (.inr ⟨heq.symm, hack, rfl, hkey⟩)
    · next hne =>
      have hmem : i ∈ (old.elim e.index (e.index.remove id)).leased t.key := by
        cases old with
        | none => exact h.leased i t ht hack hkey
        | some _ => exact Index.mem_leased_remove (h.leased i t ht hack hkey) (Ne.symm hne)
      cases new with
      | none => exact hmem
      | some _ => exact Index.mem_leased_add (.inl hmem)

end

variable (h : e.Indexed)

include h

theorem Indexed.remove (id : Nat) : (e.remove id).Indexed := by
  unfold SubscriptionEntry.remove
  split
  · exact h
  · next t ht =>
    refine Writes.indexed (?_ : Writes e _ id (some t) none) h
    exact ⟨ht, fun i => by simp [getElem?_erase], rfl⟩

theorem Indexed.update (id : Nat) (change : Tracked → Tracked) : (e.update id change).Indexed := by
  unfold SubscriptionEntry.update
  split
  · exact h
  · next t ht =>
    refine Writes.indexed (?_ : Writes e _ id (some t) (some (change t))) h
    exact ⟨ht, fun i => by simp [getElem?_insert], rfl⟩

theorem Indexed.insert {t : Tracked} (hnew : e.messages[t.message.id]? = none) :
    (e.insert t).Indexed := by
  simp only [SubscriptionEntry.insert, hnew]
  refine Writes.indexed (?_ : Writes e _ t.message.id none (some t)) h
  exact ⟨hnew, fun i => by simp [getElem?_insert], rfl⟩

end SubscriptionEntry

end Firenook.Pubsub
