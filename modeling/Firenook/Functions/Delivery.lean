import Firenook.Functions.Triggers
import Firenook.Support.ByteCodes

/-!
# Functions — from a commit to the admitted requests

The observer builds one request for each trigger that a change of a client commit calls, and the
delivery coordinator admits a request unless its event id was admitted before. The id is a digest of
the trigger's project and key, the revision, the index of the change and the name of the document
(`eventText`); the trigger's generation is not part of it.

A `Bridge` steps through registrations, commits, the changes of a commit one by one (the registry is
locked for one change only) and the requests the coordinator takes. `commits`, `observed` and
`admitted` record the run. If no change calls triggers of both generations under one key, and no
project or key holds a zero byte, every matching trigger gets exactly one request, in commit and
change order (**`Bridge.each_trigger_once`**). With one key in both generations the second never
hears of a change (`second_generation_dropped`).
-/

namespace Firenook.Functions

open List Option Std ExtTreeMap Bytes

variable {t : Trigger} {generation : TriggerGeneration} {map : TriggerMap} {registry : Registry}
  {capacity : Nat}

/-! ### Observations and requests -/

inductive CommitOrigin where
  | client
  | maintenance
  deriving DecidableEq

/-- A commit as an observer sees it. -/
structure Observation where
  revision : UInt64
  changes : List Change
  origin : CommitOrigin
  fits : changes.length ≤ 2 ^ 64

/-- `DocumentKey::to_string`. -/
def keyText (key : DocumentKey) : Text :=
  ascii "projects/" ++ key.database.projectId.bytes ++ ascii "/databases/"
    ++ key.database.databaseId.bytes ++ ascii "/documents/" ++ key.path.bytes

/-- What the event id digests. -/
def eventText (trigger : Trigger) (revision : UInt64) (changeIndex : Nat) (change : Change) :
    Text :=
  trigger.project ++ 0 :: (trigger.key ++ 0 ::
    (beBytes 8 revision.toNat ++ (beBytes 8 changeIndex ++ keyText change.key)))

/-- A request to the Functions host. Its headers and its body are made from the trigger, the
change and the event id. -/
structure DispatchRequest (Id : Type) where
  path : Text
  eventId : Id
  trigger : Trigger
  change : Change
  deriving DecidableEq

variable {Id : Type}

/-- The request of a trigger for one change of a commit. -/
def dispatch (digest : Text → Id) (trigger : Trigger) (revision : UInt64) (changeIndex : Nat)
    (change : Change) : DispatchRequest Id where
  path := ascii "/functions/projects/" ++ trigger.project ++ ascii "/triggers/" ++ trigger.key
  eventId := digest (eventText trigger revision changeIndex change)
  trigger := trigger
  change := change

/-- No request for an index outside the observation or a trigger that does not match. -/
def buildDispatch (digest : Text → Id) (trigger : Trigger) (observation : Observation)
    (changeIndex : Nat) : Option (DispatchRequest Id) :=
  match observation.changes[changeIndex]? with
  | none => none
  | some change =>
    if trigger.matches change then
      some (dispatch digest trigger observation.revision changeIndex change)
    else none

/-! ### The bridge -/

/-- One change of a commit. -/
structure Sighting where
  observation : Observation
  changeIndex : Nat
  change : Change

/-- The loop of `committed`: the changes of a client commit with their indexes. -/
def Observation.sightings (observation : Observation) : List Sighting :=
  observation.changes.zipIdx.map fun c => ⟨observation, c.2, c.1⟩

/-- A change the observer handled, and the registry it found. -/
structure Observed extends Sighting where
  registry : Registry

structure Bridge (Id : Type) where
  registry : Registry := {}
  /-- The changes that the observer has still to handle. -/
  pending : List Sighting := []
  queue : List (DispatchRequest Id) := []
  seen : List Id := []
  seenOrder : List Id := []
  commits : List Observation := []
  observed : List Observed := []
  admitted : List (DispatchRequest Id) := []

inductive Event where
  | registerV1 (project key : Text) (eventTrigger : Option EventTriggerBody)
  | registerV2 (project key : Text) (body : EventarcBody)
  | removeV1 (project key : Text)
  | removeV2 (project key : Text)
  | setBackgroundEnabled (enabled : Bool)
  | committed (observation : Observation)
  | handle
  | receive

/-- Forgets the oldest ids while `capacity` or more are kept. -/
def evict [DecidableEq Id] (capacity : Nat) : List Id → List Id → List Id × List Id
  | [], seen => ([], seen)
  | expired :: order, seen =>
    if capacity ≤ seen.length then evict capacity order (seen.erase expired)
    else (expired :: order, seen)

namespace Bridge

variable {observation : Observation} {digest : Text → Id}

/-- A refused registration leaves the registry as it was. -/
def register (bridge : Bridge Id) (result : Except RegistrationError Registry) : Bridge Id :=
  match result with
  | .ok registry => { bridge with registry }
  | .error _ => bridge

/-- Housekeeping commits call no trigger. -/
def committed (bridge : Bridge Id) (observation : Observation) : Bridge Id :=
  match observation.origin with
  | .maintenance => bridge
  | .client =>
    { bridge with
      pending := bridge.pending ++ observation.sightings
      commits := bridge.commits ++ [observation] }

/-- The observer's loop body: the triggers of the next change, each with its request. -/
def handle (digest : Text → Id) (bridge : Bridge Id) : Bridge Id :=
  match bridge.pending with
  | [] => bridge
  | sighting :: pending =>
    { bridge with
      pending
      queue := bridge.queue ++ (bridge.registry.matching sighting.change).filterMap
        fun trigger => buildDispatch digest trigger sighting.observation sighting.changeIndex
      observed := bridge.observed ++ [{ sighting with registry := bridge.registry }] }

/-- `admit_delivery`: a request is dropped if its id was seen. -/
def admitDelivery [DecidableEq Id] (capacity : Nat) (bridge : Bridge Id)
    (request : DispatchRequest Id) : Bridge Id :=
  if request.eventId ∈ bridge.seen then bridge
  else
    let (seenOrder, seen) := evict capacity bridge.seenOrder bridge.seen
    { bridge with
      seen := seen ++ [request.eventId]
      seenOrder := seenOrder ++ [request.eventId]
      admitted := bridge.admitted ++ [request] }

/-- The coordinator takes the oldest request of the channel. -/
def receive [DecidableEq Id] (capacity : Nat) (bridge : Bridge Id) : Bridge Id :=
  match bridge.queue with
  | [] => bridge
  | request :: queue => admitDelivery capacity { bridge with queue } request

def step [DecidableEq Id] (digest : Text → Id) (capacity : Nat) (bridge : Bridge Id) :
    Event → Bridge Id
  | .registerV1 project key eventTrigger =>
    bridge.register (bridge.registry.registerV1 project key eventTrigger)
  | .registerV2 project key body => bridge.register (bridge.registry.registerV2 project key body)
  | .removeV1 project key => { bridge with registry := bridge.registry.removeV1 project key }
  | .removeV2 project key => { bridge with registry := bridge.registry.removeV2 project key }
  | .setBackgroundEnabled enabled =>
    { bridge with registry := bridge.registry.setBackgroundEnabled enabled }
  | .committed observation => bridge.committed observation
  | .handle => bridge.handle digest
  | .receive => bridge.receive capacity

/-! ### Runs -/

/-- What is assumed of every step: revisions grow, delivery is enabled when a change is handled,
and fewer than `capacity` requests were admitted. -/
def Assumed (capacity : Nat) (bridge : Bridge Id) : Event → Prop
  | .committed observation => ∀ c ∈ bridge.commits, c.revision < observation.revision
  | .handle => bridge.registry.backgroundEnabled = true
  | .receive => bridge.admitted.length < capacity
  | _ => True

/-- Registrations use no zero byte, and a change that is handled calls no two triggers of
different generations under one key. -/
def Clear (bridge : Bridge Id) : Event → Prop
  | .registerV1 project key _ => 0 ∉ project ∧ 0 ∉ key
  | .registerV2 project key _ => 0 ∉ project ∧ 0 ∉ key
  | .handle => ∀ sighting ∈ bridge.pending.head?,
      ∀ t₁ ∈ bridge.registry.matching sighting.change,
      ∀ t₂ ∈ bridge.registry.matching sighting.change, t₁.key = t₂.key →
        t₁.generation = t₂.generation
  | _ => True

instance (capacity : Nat) (bridge : Bridge Id) : DecidablePred (Assumed capacity bridge)
  | .committed observation =>
    inferInstanceAs (Decidable (∀ c ∈ bridge.commits, c.revision < observation.revision))
  | .handle => inferInstanceAs (Decidable (bridge.registry.backgroundEnabled = true))
  | .receive => inferInstanceAs (Decidable (bridge.admitted.length < capacity))
  | .registerV1 .. | .registerV2 .. | .removeV1 .. | .removeV2 .. | .setBackgroundEnabled _ =>
    isTrue trivial

instance (bridge : Bridge Id) : DecidablePred (Clear bridge)
  | .registerV1 project key _ => inferInstanceAs (Decidable (0 ∉ project ∧ 0 ∉ key))
  | .registerV2 project key _ => inferInstanceAs (Decidable (0 ∉ project ∧ 0 ∉ key))
  | .handle => inferInstanceAs (Decidable (∀ sighting ∈ bridge.pending.head?,
      ∀ t₁ ∈ bridge.registry.matching sighting.change,
      ∀ t₂ ∈ bridge.registry.matching sighting.change, t₁.key = t₂.key →
        t₁.generation = t₂.generation))
  | .removeV1 .. | .removeV2 .. | .setBackgroundEnabled _ | .committed _ | .receive =>
    isTrue trivial

/-- The bridges that steps meeting `permitted` reach. -/
inductive Run [DecidableEq Id] (digest : Text → Id) (capacity : Nat)
    (permitted : Bridge Id → Event → Prop) : Bridge Id → Prop
  | start : Run digest capacity permitted {}
  | next {bridge : Bridge Id} (event : Event) : Run digest capacity permitted bridge →
      permitted bridge event → Run digest capacity permitted (bridge.step digest capacity event)

/-- The requests that the changes handled so far call for. -/
def due (digest : Text → Id) (observed : List Observed) : List (DispatchRequest Id) :=
  observed.flatMap fun o =>
    (o.registry.matching o.change).map (dispatch digest · o.observation.revision o.changeIndex
      o.change)

/-- Commit order, and within a commit change order. -/
def Before (a b : Sighting) : Prop :=
  a.observation.revision < b.observation.revision
    ∨ a.observation.revision = b.observation.revision ∧ a.changeIndex < b.changeIndex

/-! ### Event ids -/

/-- A text without the separator is recovered from what it begins. -/
theorem split_zero {a b r s : Text} (ha : 0 ∉ a) (hb : 0 ∉ b) (h : a ++ 0 :: r = b ++ 0 :: s) :
    a = b ∧ r = s := by
  induction a generalizing b with
  | nil =>
    cases b with
    | nil => exact ⟨rfl, (cons.inj h).2⟩
    | cons x b => exact absurd ((cons.inj h).1 ▸ mem_cons_self) hb
  | cons x a ih =>
    cases b with
    | nil => exact absurd ((cons.inj h).1 ▸ mem_cons_self) ha
    | cons y b =>
      obtain ⟨rfl, htl⟩ := cons.inj h
      obtain ⟨rfl, hrs⟩ := ih (fun hx => ha (mem_cons_of_mem _ hx))
        (fun hx => hb (mem_cons_of_mem _ hx)) htl
      exact ⟨rfl, hrs⟩

/-- An event id settles the key, the revision and the index of the change. -/
theorem eventText_inj {t' : Trigger} {revision revision' : UInt64} {i i' : Nat} {c c' : Change}
    (ht : 0 ∉ t.project ∧ 0 ∉ t.key) (ht' : 0 ∉ t'.project ∧ 0 ∉ t'.key) (hi : i < 2 ^ 64)
    (hi' : i' < 2 ^ 64) (h : eventText t revision i c = eventText t' revision' i' c') :
    t.key = t'.key ∧ revision = revision' ∧ i = i' := by
  obtain ⟨-, h⟩ := split_zero ht.1 ht'.1 h
  obtain ⟨hkey, h⟩ := split_zero ht.2 ht'.2 h
  obtain ⟨hrev, h⟩ := append_inj h (by simp)
  obtain ⟨hidx, -⟩ := append_inj h (by simp)
  exact ⟨hkey, UInt64.toNat_inj.mp (beBytes_injective revision.toNat_lt revision'.toNat_lt hrev),
    beBytes_injective hi hi' hidx⟩

/-! ### What the registry holds -/

/-- Every trigger is filed under its own project and key, which hold no zero byte. -/
def Filed (generation : TriggerGeneration) (map : TriggerMap) : Prop :=
  ∀ (key : TriggerKey) (trigger : Trigger), map[key]? = some trigger →
    key = ⟨trigger.project, trigger.key⟩
    ∧ trigger.generation = generation ∧ 0 ∉ trigger.project ∧ 0 ∉ trigger.key

section

variable (h : Filed generation map)

include h

theorem Filed.insert {trigger : Trigger} (hg : trigger.generation = generation)
    (hzr : 0 ∉ trigger.project ∧ 0 ∉ trigger.key) :
    Filed generation (map.insert ⟨trigger.project, trigger.key⟩ trigger) := by
  intro key t ht
  rw [ExtTreeMap.getElem?_insert] at ht
  split at ht
  · next heq =>
    cases ht
    exact ⟨(LawfulEqCmp.eq_of_compare heq).symm, hg, hzr⟩
  · exact h key t ht

theorem Filed.erase (key : TriggerKey) : Filed generation (map.erase key) := by
  intro key' t ht
  rw [getElem?_erase] at ht
  split at ht
  · cases ht
  · exact h key' t ht

/-- The triggers of one generation differ in their projects or their keys. -/
theorem Filed.pairwise :
    (map.toList.map Prod.snd).Pairwise fun t t' => t.project = t'.project → t.key ≠ t'.key := by
  refine pairwise_map.mpr (map.distinct_keys_toList.imp_of_mem ?_)
  intro a b ha hb hne hprj hkey
  have ha := (h a.1 a.2 (mem_toList_iff_getElem?_eq_some.mp ha)).1
  have hb := (h b.1 b.2 (mem_toList_iff_getElem?_eq_some.mp hb)).1
  rw [ha, hb, hprj, hkey] at hne
  exact hne ReflCmp.compare_self

theorem Filed.of_mem (ht : t ∈ map.toList.map Prod.snd) :
    t.generation = generation ∧ 0 ∉ t.project ∧ 0 ∉ t.key := by
  obtain ⟨⟨key, t⟩, hmem, rfl⟩ := mem_map.mp ht
  exact (h key t (mem_toList_iff_getElem?_eq_some.mp hmem)).2

end

structure Ordered (registry : Registry) : Prop where
  v1 : Filed .v1 registry.v1
  v2 : Filed .v2 registry.v2

theorem Ordered.zero_free (h : Ordered registry) (ht : t ∈ registry.all) :
    0 ∉ t.project ∧ 0 ∉ t.key := by
  rcases mem_append.mp ht with ht | ht
  · exact (h.v1.of_mem ht).2
  · exact (h.v2.of_mem ht).2

/-- Two registrations of one generation differ in their projects or their keys. -/
theorem Ordered.pairwise_all (h : Ordered registry) : registry.all.Pairwise fun t t' =>
      t.generation = t'.generation → t.project = t'.project → t.key ≠ t'.key := by
  refine pairwise_append.mpr ⟨h.v1.pairwise.imp fun hne _ hprj => hne hprj,
    h.v2.pairwise.imp fun hne _ hprj => hne hprj, fun t ht t' ht' hg => ?_⟩
  rw [(h.v1.of_mem ht).1, (h.v2.of_mem ht').1] at hg
  cases hg

theorem mem_matching {change : Change} (h : t ∈ registry.matching change) :
    t ∈ registry.all ∧ t.matches change = true := by
  unfold Registry.matching at h
  split at h
  · exact mem_filter.mp h
  · cases h

/-- The triggers a change calls have keys of their own, if none of them shares its key with one
of the other generation. -/
theorem Ordered.nodup_keys (h : Ordered registry) {change : Change}
    (hclr : ∀ t₁ ∈ registry.matching change, ∀ t₂ ∈ registry.matching change, t₁.key = t₂.key →
      t₁.generation = t₂.generation) :
    (registry.matching change).Pairwise fun t t' => t.key ≠ t'.key := by
  have hall : (registry.matching change).Pairwise fun t t' =>
      t.generation = t'.generation → t.project = t'.project → t.key ≠ t'.key := by
    unfold Registry.matching
    split
    · exact h.pairwise_all.filter _
    · exact .nil
  refine hall.imp_of_mem fun ht ht' hapt hkey => ?_
  exact hapt (hclr _ ht _ ht' hkey) ((Trigger.project_of_matches (mem_matching ht).2).trans
    (Trigger.project_of_matches (mem_matching ht').2).symm) hkey

/-! ### Commit and change order -/

theorem mem_sightings {s : Sighting} (h : s ∈ observation.sightings) :
    s.observation = observation ∧ s.observation.changes[s.changeIndex]? = some s.change := by
  obtain ⟨⟨change, i⟩, hmem, rfl⟩ := mem_map.mp h
  exact ⟨rfl, mem_zipIdx_iff_getElem?.mp hmem⟩

theorem sightings_pairwise (observation : Observation) : observation.sightings.Pairwise Before := by
  refine pairwise_map.mpr ?_
  have hlt : (observation.changes.zipIdx.map Prod.snd).Pairwise (· < ·) := by
    rw [zipIdx_map_snd]
    exact pairwise_lt_range'
  exact (pairwise_map.mp hlt).imp fun h => .inr ⟨rfl, h⟩

/-- Growing revisions put the changes of all commits in order. -/
theorem before_of_increasing {commits : List Observation}
    (h : commits.Pairwise fun a b => a.revision < b.revision) :
    (commits.flatMap Observation.sightings).Pairwise Before := by
  refine pairwise_flatMap.mpr ⟨fun o _ => sightings_pairwise o, h.imp fun hlt s hs s' hs' => ?_⟩
  rw [← (mem_sightings hs).1, ← (mem_sightings hs').1] at hlt
  exact .inl hlt

/-! ### The invariant -/

/-- What holds of a change when it is handled. -/
structure Sound (o : Observed) : Prop where
  registry : Ordered o.registry
  enabled : o.registry.backgroundEnabled = true
  index : o.changeIndex < 2 ^ 64
  keys : (o.registry.matching o.change).Pairwise fun t t' => t.key ≠ t'.key

/-- No two requests that are due share an event id. -/
theorem due_ids_apart (hdigest : Function.Injective digest)
    {observed : List Observed} (hsnd : ∀ o ∈ observed, Sound o)
    (hbef : observed.Pairwise fun a b => Before a.toSighting b.toSighting) :
    (due digest observed).Pairwise fun r r' => r.eventId ≠ r'.eventId := by
  refine pairwise_flatMap.mpr ⟨fun o ho => pairwise_map.mpr ?_, ?_⟩
  · have hs := hsnd o ho
    refine hs.keys.imp_of_mem fun ht ht' hkey hid => hkey ?_
    exact (eventText_inj (hs.registry.zero_free (mem_matching ht).1)
      (hs.registry.zero_free (mem_matching ht').1) hs.index hs.index (hdigest hid)).1
  · refine hbef.imp_of_mem fun {o o'} ho ho' hlt r hr r' hr' hid => ?_
    obtain ⟨t, ht, rfl⟩ := mem_map.mp hr
    obtain ⟨t', ht', rfl⟩ := mem_map.mp hr'
    have hs := hsnd o ho
    have hs' := hsnd o' ho'
    obtain ⟨-, hrev, hidx⟩ := eventText_inj (hs.registry.zero_free (mem_matching ht).1)
      (hs'.registry.zero_free (mem_matching ht').1) hs.index hs'.index (hdigest hid)
    rcases hlt with hlt | ⟨-, hlt⟩
    · exact absurd hrev (UInt64.ne_of_lt hlt)
    · exact absurd hidx hlt.ne

structure Inv (digest : Text → Id) (bridge : Bridge Id) : Prop where
  registry : Ordered bridge.registry
  increasing : bridge.commits.Pairwise fun a b => a.revision < b.revision
  covered : bridge.observed.map Observed.toSighting ++ bridge.pending
    = bridge.commits.flatMap Observation.sightings
  sound : ∀ o ∈ bridge.observed, Sound o
  requests : bridge.admitted ++ bridge.queue = due digest bridge.observed
  seen : bridge.seen = bridge.admitted.map DispatchRequest.eventId

namespace Inv

variable {digest : Text → Id} {bridge : Bridge Id}

section

variable (h : Inv digest bridge)

include h

theorem before : bridge.observed.Pairwise fun a b => Before a.toSighting b.toSighting := by
  have hall := before_of_increasing h.increasing
  rw [← h.covered] at hall
  exact pairwise_map.mp (pairwise_append.mp hall).1

theorem ids_apart (hdigest : Function.Injective digest) :
    (bridge.admitted ++ bridge.queue).Pairwise fun r r' => r.eventId ≠ r'.eventId :=
  h.requests ▸ due_ids_apart hdigest h.sound h.before

/-- A step that changes the registry only. -/
theorem with_registry (hr : Ordered registry) : Inv digest { bridge with registry } :=
  ⟨hr, h.increasing, h.covered, h.sound, h.requests, h.seen⟩

theorem committed (hlat : ∀ c ∈ bridge.commits, c.revision < observation.revision) :
    Inv digest (bridge.committed observation) := by
  unfold Bridge.committed
  split
  · exact h
  refine ⟨h.registry, ?_, ?_, h.sound, h.requests, h.seen⟩
  · exact pairwise_append.mpr ⟨h.increasing, pairwise_singleton _ _,
      fun c hc o ho => mem_singleton.mp ho ▸ hlat c hc⟩
  · rw [← append_assoc, h.covered, flatMap_append, flatMap_singleton]

end

theorem handle (h : Inv digest bridge) (henb : bridge.registry.backgroundEnabled = true)
    (hclr : Clear bridge .handle) : Inv digest (bridge.handle digest) := by
  unfold Bridge.handle
  split
  · exact h
  next s pending hpen =>
  have hmem : s ∈ bridge.commits.flatMap Observation.sightings := by
    rw [← h.covered, hpen]
    simp
  obtain ⟨o, -, ho⟩ := mem_flatMap.mp hmem
  have hfd := (mem_sightings ho).2
  have hlen : s.changeIndex < s.observation.changes.length :=
    (List.getElem?_eq_some_iff.mp hfd).1
  refine ⟨h.registry, h.increasing, ?_, ?_, ?_, h.seen⟩
  · rw [← h.covered, hpen]
    simp
  · intro o ho
    rcases mem_append.mp ho with ho | ho
    · exact h.sound o ho
    · cases mem_singleton.mp ho
      refine ⟨h.registry, henb, hlen.trans_le s.observation.fits, ?_⟩
      exact h.registry.nodup_keys (hclr s (by simp [hpen]))
  · rw [← append_assoc, h.requests, filterMap_congr (g := some ∘ (dispatch digest ·
      s.observation.revision s.changeIndex s.change)) fun t ht => by
        simp [buildDispatch, hfd, (mem_matching ht).2], filterMap_eq_map]
    simp [due]

theorem evict_of_lt [DecidableEq Id] {order seen : List Id} (h : seen.length < capacity) :
    evict capacity order seen = (order, seen) := by
  cases order with
  | nil => rfl
  | cons expired order => rw [evict, if_neg (Nat.not_le.mpr h)]

section

variable [DecidableEq Id] (h : Inv digest bridge) (hdigest : Function.Injective digest)

include h hdigest

/-- The request the coordinator takes is admitted: its id is new, and nothing is forgotten. -/
theorem receive (hrm : bridge.admitted.length < capacity) :
    Inv digest (bridge.receive capacity) := by
  unfold Bridge.receive
  split
  · exact h
  next request queue hque =>
  have hnew : request.eventId ∉ bridge.seen := by
    rw [h.seen]
    intro hmem
    obtain ⟨r, hr, hid⟩ := mem_map.mp hmem
    exact (pairwise_append.mp (h.ids_apart hdigest)).2.2 r hr request (hque ▸ mem_cons_self) hid
  have hlen : bridge.seen.length < capacity := by rwa [h.seen, length_map]
  rw [admitDelivery, if_neg hnew, evict_of_lt hlen]
  refine ⟨h.registry, h.increasing, h.covered, h.sound, ?_, ?_⟩
  · rw [← h.requests, hque, append_assoc, singleton_append]
  · simp [h.seen]

theorem step {event : Event} (hasm : Assumed capacity bridge event)
    (hclr : Clear bridge event) : Inv digest (bridge.step digest capacity event) := by
  cases event with
  | registerV1 project key eventTrigger =>
    simp only [Bridge.step, register]
    split
    · next registry hok =>
      obtain ⟨t, rfl, rfl, hg, rfl⟩ := Registry.registerV1_ok hok
      exact h.with_registry ⟨h.registry.v1.insert hg hclr, h.registry.v2⟩
    · exact h
  | registerV2 project key body =>
    simp only [Bridge.step, register]
    split
    · next registry hok =>
      obtain ⟨t, rfl, rfl, hg, rfl⟩ := Registry.registerV2_ok hok
      exact h.with_registry ⟨h.registry.v1, h.registry.v2.insert hg hclr⟩
    · exact h
  | removeV1 project key => exact h.with_registry ⟨h.registry.v1.erase _, h.registry.v2⟩
  | removeV2 project key => exact h.with_registry ⟨h.registry.v1, h.registry.v2.erase _⟩
  | setBackgroundEnabled enabled => exact h.with_registry ⟨h.registry.v1, h.registry.v2⟩
  | committed observation => exact h.committed hasm
  | handle => exact h.handle hasm hclr
  | receive => exact h.receive hdigest hasm

end

end Inv

theorem Run.inv [DecidableEq Id] (hdigest : Function.Injective digest) {bridge : Bridge Id}
    (run : Run digest capacity (fun b e => Assumed capacity b e ∧ Clear b e) bridge) :
    Inv digest bridge := by
  induction run with
  | start =>
    exact ⟨⟨fun _ _ h => by simp at h, fun _ _ h => by simp at h⟩, .nil, rfl,
      fun _ h => by simp at h, rfl, rfl⟩
  | next event _ hprm ih => exact ih.step hdigest hprm.1 hprm.2

/-- **Every matching trigger once.** The changes handled are those of the client commits, in
commit and change order, up to the ones still pending. The requests admitted, followed by those
in the channel, are those the handled changes call for, in that order: each trigger registered
when a matching change was handled has exactly one, and there is no other. -/
theorem each_trigger_once [DecidableEq Id] {digest : Text → Id}
    (hdigest : Function.Injective digest) {capacity : Nat} {bridge : Bridge Id}
    (run : Run digest capacity (fun b e => Assumed capacity b e ∧ Clear b e) bridge) :
    bridge.observed.map Observed.toSighting ++ bridge.pending
        = bridge.commits.flatMap Observation.sightings ∧
    bridge.observed.Pairwise (fun a b => Before a.toSighting b.toSighting) ∧
    bridge.admitted ++ bridge.queue = due digest bridge.observed ∧
    (∀ o ∈ bridge.observed, ∀ t ∈ o.registry.all, t.matches o.change = true →
      (bridge.admitted ++ bridge.queue).count
        (dispatch digest t o.observation.revision o.changeIndex o.change) = 1) ∧
    ∀ r ∈ bridge.admitted ++ bridge.queue, ∃ o ∈ bridge.observed, ∃ t ∈ o.registry.all,
      t.matches o.change = true ∧
        r = dispatch digest t o.observation.revision o.changeIndex o.change := by
  have h := run.inv hdigest
  have hnd : (bridge.admitted ++ bridge.queue).Nodup :=
    (h.ids_apart hdigest).imp fun hne heq => hne (congrArg DispatchRequest.eventId heq)
  refine ⟨h.covered, h.before, h.requests, ?_, ?_⟩
  · intro o ho t ht hmt
    refine count_eq_one_of_mem hnd ?_
    rw [h.requests]
    refine mem_flatMap.mpr ⟨o, ho, mem_map_of_mem ?_⟩
    rw [Registry.matching, if_pos (h.sound o ho).enabled]
    exact mem_filter.mpr ⟨ht, hmt⟩
  · intro r hr
    rw [h.requests] at hr
    obtain ⟨o, ho, hr⟩ := mem_flatMap.mp hr
    obtain ⟨t, ht, rfl⟩ := mem_map.mp hr
    exact ⟨o, ho, t, (mem_matching ht).1, (mem_matching ht).2, rfl⟩

/-! ### Two triggers of one key -/

/-- The bridge after the events, while each is permitted. -/
def play [DecidableEq Id] (digest : Text → Id) (capacity : Nat)
    (permitted : Bridge Id → Event → Prop) [∀ b, DecidablePred (permitted b)] :
    List Event → Bridge Id → Option (Bridge Id)
  | [], b => some b
  | e :: es, b =>
    if permitted b e then play digest capacity permitted es (b.step digest capacity e) else none

theorem Run.play [DecidableEq Id] {capacity : Nat}
    {permitted : Bridge Id → Event → Prop} [∀ b, DecidablePred (permitted b)] {b' : Bridge Id} :
    ∀ {es : List Event} {b : Bridge Id}, Run digest capacity permitted b →
      b.play digest capacity permitted es = some b' → Run digest capacity permitted b'
  | [], _, run, h => some.inj h ▸ run
  | e :: es, b, run, h => by
    rw [Bridge.play, ite_none_right_eq_some] at h
    exact (run.next e h.1).play h.2

def createdKey : DocumentKey :=
  ⟨exampleDatabase, ⟨ascii "c/x", by decide⟩, by decide⟩

def emptyDocument : Document := ⟨.empty, .zero, .zero⟩

/-- A client commit that creates one document. -/
def created : Observation :=
  ⟨1, [⟨1, createdKey, none, some emptyDocument⟩], .client, by decide⟩

/-- The registrations of a trigger on that document, in each generation. -/
def onCreateV1 : Event :=
  .registerV1 (ascii "p") (ascii "k") (some
    ⟨some (.known .v1 .create false), some (ascii "firestore.googleapis.com"),
      some (ascii "projects/p/databases/d/documents/c/x")⟩)

def onCreateV2 : Event :=
  .registerV2 (ascii "p") (ascii "k")
    ⟨some (.known .v2 .create false), some (ascii "d"), some ⟨some (ascii "c/x"), some .exact⟩⟩

/-- One trigger, one change: the request is admitted. -/
theorem each_trigger_once_created : ∃ b : Bridge Text,
    Run id 1 (fun b e => Assumed 1 b e ∧ Clear b e) b ∧ b.queue = [] ∧ b.admitted.length = 1 ∧
    ∀ o ∈ b.observed, ∀ t ∈ o.registry.all, t.matches o.change = true →
      (b.admitted ++ b.queue).count
        (dispatch id t o.observation.revision o.changeIndex o.change) = 1 := by
  have hpl : (({} : Bridge Text).play id 1 (fun b e => Assumed 1 b e ∧ Clear b e)
      [onCreateV1, .committed created, .handle, .receive]).any
      (fun b => b.queue.isEmpty && b.admitted.length == 1) = true := by decide +kernel
  obtain ⟨b, hb, h⟩ := (any_eq_true _ _).mp hpl
  simp only [Bool.and_eq_true, List.isEmpty_iff, beq_iff_eq] at h
  have run := Run.start.play hb
  exact ⟨b, run, h.1, h.2, (each_trigger_once Function.injective_id run).2.2.2.1⟩

/-- **A trigger that is never called.** A trigger of each generation is registered under one key,
and a matching document is created: both requests carry one event id, and the coordinator drops
the second. -/
theorem second_generation_dropped : ∃ b : Bridge Text, Run id 8 (Assumed 8) b ∧
    b.pending = [] ∧ b.queue = [] ∧ b.admitted.length = 1 ∧
    ∃ o ∈ b.observed, ∃ t ∈ o.registry.all, t.generation = .v2 ∧ t.matches o.change = true ∧
      dispatch id t o.observation.revision o.changeIndex o.change ∉ b.admitted := by
  have hpl : (({} : Bridge Text).play id 8 (Assumed 8)
      [onCreateV1, onCreateV2, .committed created, .handle, .receive, .receive]).any
      (fun b => b.pending.isEmpty && b.queue.isEmpty && b.admitted.length == 1 &&
        b.observed.any fun o => o.registry.all.any fun t => t.generation == .v2 &&
          t.matches o.change && !b.admitted.contains
            (dispatch id t o.observation.revision o.changeIndex o.change)) = true := by
    decide +kernel
  obtain ⟨b, hb, h⟩ := (any_eq_true _ _).mp hpl
  simp only [Bool.and_eq_true, List.isEmpty_iff, beq_iff_eq, List.any_eq_true, Bool.not_eq_true',
    List.contains_eq_mem, decide_eq_false_iff_not] at h
  obtain ⟨⟨⟨hpen, hque⟩, hlen⟩, o, ho, t, ht, ⟨hg, hmt⟩, hnot⟩ := h
  exact ⟨b, Run.start.play hb, hpen, hque, hlen, o, ho, t, ht, hg, hmt, hnot⟩

end Bridge

end Firenook.Functions
