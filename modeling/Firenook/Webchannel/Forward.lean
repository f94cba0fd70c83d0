import Mathlib.Data.List.Sort
import Mathlib.Data.List.Range
import Mathlib.Tactic.IntervalCases

/-!
# WebChannel — forward maps

A client of a WebChannel session sends its messages, *maps*, in forward POSTs (`post_channel`,
`Session::send_maps`). Each map has an absolute id, the POST's offset plus a local id. POSTs may
arrive in any order and more than once, so the session keeps the pairs it has seen, the next id it
has not handed on, and a bounded buffer of maps that came early. A POST first takes its maps in,
under the state's lock, and takes out what has become ready; it then hands these to the backend one
by one, and may be dropped while it waits.

**Exactly once, in order** (`forward_exactly_once`). While no POST is refused for want of space, is
dropped, or finds the backend gone, the backend has the maps from the first id on, each once, and has
every map that was answered, as soon as all lower ids were. A dropped POST loses its maps for good,
since they were already seen and taken out of the buffer (`dropped_map`).
-/

namespace Firenook.Webchannel

variable {ofs localId : Nat}

open List Std Option

inductive ProtocolError where
  | badRequest (message : String)
  | capacity (message : String)
  | unknownSession
  deriving DecidableEq

def maximumMapsPerRequest : Nat := 1000

def maximumPendingForwardMaps : Nat := 4096

def maximumPendingForwardBytes : Nat := 64 * 1024 * 1024

def maxWord : Nat := 2 ^ 64 - 1

/-- `saturating_add` of a 64-bit word. -/
def saturatingAdd (a b : Nat) : Nat := min (a + b) maxWord

variable {J : Type}

/-! ### A forward POST -/

structure MapMessage (J : Type) where
  localId : Nat
  value : J

/-- A field of the form a POST carries, with its number or value parsed, or why it does not. -/
inductive FormField (J : Type) where
  | count (value : Option Nat)
  | ofs (value : Option Nat)
  | headers (error : Option String)
  | data (localId : Option Nat) (value : Except String J)
  | other

def formMaps : List (FormField J) → Except ProtocolError (List (MapMessage J))
  | [] => .ok []
  | .headers (some error) :: _ => .error (.badRequest error)
  | .data none _ :: _ => .error (.badRequest "request map ID must be an unsigned integer")
  | .data (some _) (.error error) :: _ =>
    .error (.badRequest s!"request map is not JSON: {error}")
  | .data (some localId) (.ok value) :: fields => do
    let maps ← formMaps fields
    pure (⟨localId, value⟩ :: maps)
  | _ :: fields => formMaps fields

/-- The first `count` of the form, zero where there is none. -/
def formCount : List (FormField J) → Except ProtocolError Nat
  | [] => .ok 0
  | .count none :: _ => .error (.badRequest "count must be an unsigned integer")
  | .count (some count) :: _ => .ok count
  | _ :: fields => formCount fields

/-- `parse_forward_body`: the maps, sorted by their local ids. -/
def parseForwardBody (form : List (FormField J)) : Except ProtocolError (List (MapMessage J)) := do
  let count ← formCount form
  if count > maximumMapsPerRequest then
    .error (.capacity "WebChannel forward map limit exceeded")
  else
    let maps ← formMaps form
    let maps := maps.insertionSort fun a b => a.localId ≤ b.localId
    let supplied := maps.length
    if supplied = count then pure maps
    else .error (.badRequest s!"count declared {count} maps but {supplied} were supplied")

/-- `required_u64_form_value` for `ofs`. -/
def requiredOfs : List (FormField J) → Except ProtocolError Nat
  | [] => .error (.badRequest "missing ofs form field")
  | .ofs none :: _ => .error (.badRequest "ofs must be an unsigned integer")
  | .ofs (some ofs) :: _ => .ok ofs
  | _ :: fields => requiredOfs fields

/-- What a POST asks `send_maps` for. -/
structure Post (J : Type) where
  ofs : Nat
  maps : List (MapMessage J)

/-- The part of `post_channel` before `send_maps`. -/
def parsePost (form : List (FormField J)) : Except ProtocolError (Post J) := do
  let maps ← parseForwardBody form
  let ofs ← requiredOfs form
  pure ⟨ofs, maps⟩

def Post.ids (post : Post J) : List Nat := post.maps.map fun m => post.ofs + m.localId

/-! ### Taking maps in and out -/

structure PendingMap (J : Type) where
  value : J
  encodedBytes : Nat

/-- The forward part of `SessionState`. -/
structure ForwardState (J : Type) where
  seenMaps : List (Nat × Nat)
  pendingMaps : ExtTreeMap Nat (PendingMap J) compare
  pendingMapBytes : Nat
  nextForwardMapId : Nat

namespace ForwardState

def new : ForwardState J := ⟨[], ∅, 0, 0⟩

def see (s : ForwardState J) (pair : Nat × Nat) : ForwardState J :=
  { s with seenMaps := pair :: s.seenMaps }

/-- The map needs no place: it was seen, handed on, or waits already. -/
def known (s : ForwardState J) (ofs localId : Nat) : Bool :=
  (ofs, localId) ∈ s.seenMaps || ofs + localId < s.nextForwardMapId ||
    s.pendingMaps.contains (ofs + localId)

def full (s : ForwardState J) (encodedBytes : Nat) : Bool :=
  maximumPendingForwardMaps ≤ s.pendingMaps.size ||
    maximumPendingForwardBytes < saturatingAdd s.pendingMapBytes encodedBytes

def keep (s : ForwardState J) (id : Nat) (map : PendingMap J) : ForwardState J :=
  { s with
    pendingMapBytes := saturatingAdd s.pendingMapBytes map.encodedBytes
    pendingMaps := s.pendingMaps.insert id map }

/-- The first loop of `send_maps`. An error leaves what was taken in before it; a map counts as seen
before its space is checked. -/
def takeIn (encodedBytes : J → Nat) (ofs : Nat) (s : ForwardState J) :
    List (MapMessage J) → ForwardState J × Option ProtocolError
  | [] => (s, none)
  | m :: maps =>
    if maxWord < ofs + m.localId then
      (s, some (.badRequest "WebChannel forward map ID overflow"))
    else if s.known ofs m.localId then
      takeIn encodedBytes ofs (s.see (ofs, m.localId)) maps
    else if s.full (encodedBytes m.value) then
      (s.see (ofs, m.localId), some (.capacity "WebChannel pending forward map buffer is full"))
    else
      takeIn encodedBytes ofs ((s.see (ofs, m.localId)).keep (ofs + m.localId)
        ⟨m.value, encodedBytes m.value⟩) maps

/-- The maps of a POST that need a place in the buffer, up to the first id out of range. -/
def newMaps (s : ForwardState J) (ofs : Nat) : List (MapMessage J) → List (MapMessage J)
  | [] => []
  | m :: maps =>
    if maxWord < ofs + m.localId then []
    else if s.known ofs m.localId then s.newMaps ofs maps
    else m :: (s.newMaps ofs maps).filter (·.localId ≠ m.localId)

/-- The buffer has a place for each. -/
def HasRoom (encodedBytes : J → Nat) (s : ForwardState J) (ofs : Nat) (maps : List (MapMessage J)) :
    Prop :=
  let new := s.newMaps ofs maps
  new.isEmpty ∨ s.pendingMaps.size + new.length ≤ maximumPendingForwardMaps ∧
    s.pendingMapBytes + (new.map fun m => encodedBytes m.value).sum ≤ maximumPendingForwardBytes

/-- The next map leaves the buffer. -/
def passOn (s : ForwardState J) (map : PendingMap J) : ForwardState J :=
  { s with
    pendingMaps := s.pendingMaps.erase s.nextForwardMapId
    pendingMapBytes := s.pendingMapBytes - map.encodedBytes
    nextForwardMapId := saturatingAdd s.nextForwardMapId 1 }

/-- The second loop, for as many turns as maps wait. -/
def takeOut : Nat → ForwardState J → ForwardState J × List J
  | 0, s => (s, [])
  | turns + 1, s =>
    match s.pendingMaps[s.nextForwardMapId]? with
    | none => (s, [])
    | some map =>
      let (s', ready) := (s.passOn map).takeOut turns
      (s', map.value :: ready)

end ForwardState

/-! ### A session -/

/-- A session as its forward POSTs see it. The POST in flight holds `forward_delivery`, with the
maps it has still to hand on; `answered` are the absolute ids in the POSTs that were answered with
success. -/
structure Channel (J : Type) where
  state : ForwardState J
  closed : Bool
  flight : Option (Post J × List J)
  delivered : List J
  answered : List Nat

inductive Event (J : Type) where
  /-- A POST gets the delivery lock. -/
  | post (form : List (FormField J))
  /-- The POST in flight hands on its next map. -/
  | hand
  | answer
  /-- The POST in flight is dropped while it waits to hand on a map. -/
  | drop
  /-- The backend goes away. -/
  | close

namespace Channel

def new : Channel J := ⟨.new, false, none, [], []⟩

/-- `send_maps` up to its first wait. -/
def sendMaps (encodedBytes : J → Nat) (c : Channel J) (post : Post J) :
    Channel J × Option ProtocolError :=
  match c.state.takeIn encodedBytes post.ofs post.maps with
  | (state, some error) => ({ c with state }, some error)
  | (state, none) =>
    let (state, ready) := state.takeOut state.pendingMaps.size
    ({ c with state, flight := some (post, ready) }, none)

/-- What an event does, and the error a POST is answered with. A POST waits while another is in
flight. -/
def step (encodedBytes : J → Nat) (c : Channel J) :
    Event J → Option (Channel J × Option ProtocolError)
  | .post form =>
    match c.flight, parsePost form with
    | some _, _ => none
    | none, .error e => some (c, some e)
    | none, .ok post => some (c.sendMaps encodedBytes post)
  | .hand =>
    match c.flight with
    | some (post, map :: rest) =>
      if c.closed then
        some ({ c with flight := none }, some (.badRequest "Firestore stream is closed"))
      else
        some ({ c with flight := some (post, rest), delivered := c.delivered ++ [map] }, none)
    | _ => none
  | .answer =>
    match c.flight with
    | some (post, []) => some ({ c with flight := none, answered := post.ids ++ c.answered }, none)
    | _ => none
  | .drop =>
    match c.flight with
    | some (_, _ :: _) => some ({ c with flight := none }, none)
    | _ => none
  | .close => some ({ c with closed := true }, none)

/-- The sessions that events reach, each permitted where it happens. -/
inductive Run (encodedBytes : J → Nat) (permitted : Channel J → Event J → Prop) :
    Channel J → Prop where
  | new : Run encodedBytes permitted new
  | step {c c' : Channel J} {e : Event J} {reply : Option ProtocolError}
      (run : Run encodedBytes permitted c) (hpermitted : permitted c e)
      (h : c.step encodedBytes e = some (c', reply)) : Run encodedBytes permitted c'

/-- An absolute id always carries the same value. -/
def Consistent (value : Nat → J) : Event J → Prop
  | .post form => ∀ post, parsePost form = .ok post →
      ∀ m ∈ post.maps, m.value = value (post.ofs + m.localId)
  | _ => True

/-- Nothing is lost: the buffer has room for the maps of a POST, none is dropped, the backend is there
to take what is handed on, and no map has the last id. -/
def Smooth (encodedBytes : J → Nat) (c : Channel J) : Event J → Prop
  | .post form => ∀ post, parsePost form = .ok post →
      c.state.HasRoom encodedBytes post.ofs post.maps ∧ ∀ id ∈ post.ids, id ≠ maxWord
  | .hand => c.closed = false
  | .drop => False
  | _ => True

end Channel

/-! ### What the state knows -/

namespace ForwardState

/-- The id was handed on or waits. -/
def Accepted (s : ForwardState J) (id : Nat) : Prop :=
  id < s.nextForwardMapId ∨ id ∈ s.pendingMaps

structure Ok (value : Nat → J) (s : ForwardState J) : Prop where
  next : s.nextForwardMapId ≤ maxWord
  values : ∀ (id : Nat) map, s.pendingMaps[id]? = some map → map.value = value id
  above : ∀ id ∈ s.pendingMaps, s.nextForwardMapId ≤ id
  bounded : ∀ id ∈ s.pendingMaps, id < maxWord
  seen : ∀ pair ∈ s.seenMaps, s.Accepted (pair.1 + pair.2)

variable {value : Nat → J} {encodedBytes : J → Nat} {s s' : ForwardState J}

theorem ok_new : Ok value (new : ForwardState J) where
  next := Nat.zero_le _
  values := by simp [new]
  above := by simp [new]
  bounded := by simp [new]
  seen := nofun

theorem Ok.see (h : Ok value s) (hpr : s.Accepted (ofs + localId)) :
    Ok value (s.see (ofs, localId)) :=
  ⟨h.next, h.values, h.above, h.bounded, forall_mem_cons.mpr ⟨hpr, h.seen⟩⟩

theorem known_iff {x : Nat} : s.known ofs x = true ↔
    (ofs, x) ∈ s.seenMaps ∨ ofs + x < s.nextForwardMapId ∨ ofs + x ∈ s.pendingMaps := by
  simp only [known, Bool.or_eq_true, decide_eq_true_eq, ExtTreeMap.contains_iff_mem]
  tauto

theorem Ok.accepted_of_known (h : Ok value s) (hkn : s.known ofs localId = true) :
    s.Accepted (ofs + localId) := by
  rcases known_iff.mp hkn with hsn | hlt | hmem
  · exact h.seen _ hsn
  · exact .inl hlt
  · exact .inr hmem

theorem accepted_keep {id k : Nat} {map : PendingMap J} :
    (s.keep id map).Accepted k ↔ id = k ∨ s.Accepted k := by
  simp only [Accepted, keep, ExtTreeMap.mem_insert, Nat.compare_eq_eq]
  exact or_left_comm

theorem Ok.keep (h : Ok value s) {id : Nat} (map : PendingMap J) (hid : s.nextForwardMapId ≤ id)
    (hbd : id < maxWord) (hval : map.value = value id) : Ok value (s.keep id map) where
  next := h.next
  values k other hk := by
    simp only [ForwardState.keep, ExtTreeMap.getElem?_insert, Nat.compare_eq_eq] at hk
    split at hk
    · next heq => exact some.inj hk ▸ heq ▸ hval
    · exact h.values k other hk
  above k hk := by
    simp only [ForwardState.keep, ExtTreeMap.mem_insert, Nat.compare_eq_eq] at hk
    exact hk.elim (· ▸ hid) (h.above k)
  bounded k hk := by
    simp only [ForwardState.keep, ExtTreeMap.mem_insert, Nat.compare_eq_eq] at hk
    exact hk.elim (· ▸ hbd) (h.bounded k)
  seen pair hpr := accepted_keep.mpr (.inr (h.seen pair hpr))

/-- **Taking maps in** keeps the state in order, and accepts every map unless it stops early. Only a
full buffer breaks it, which sees a map without keeping it. -/
theorem Ok.takeIn {maps : List (MapMessage J)} {s s' : ForwardState J} {error : Option ProtocolError}
    (h : Ok value s) (hvl : ∀ m ∈ maps, m.value = value (ofs + m.localId))
    (hbds : ∀ m ∈ maps, ofs + m.localId ≠ maxWord)
    (hin : s.takeIn encodedBytes ofs maps = (s', error))
    (hspc : ∀ message, error ≠ some (.capacity message)) :
    Ok value s' ∧ s'.nextForwardMapId = s.nextForwardMapId ∧
      (∀ id, s.Accepted id → s'.Accepted id) ∧
      (error = none → ∀ m ∈ maps, s'.Accepted (ofs + m.localId)) := by
  induction maps generalizing s with
  | nil =>
    cases hin
    exact ⟨h, rfl, fun _ => id, nofun⟩
  | cons m maps ih =>
    obtain ⟨hval, hvl⟩ := forall_mem_cons.mp hvl
    obtain ⟨hbd, hbds⟩ := forall_mem_cons.mp hbds
    rw [ForwardState.takeIn] at hin
    split at hin
    · cases hin
      exact ⟨h, rfl, fun _ => id, nofun⟩
    next hwr =>
    -- What one map leaves: the same next id, and the map accepted.
    have hrs : ∀ {mid : ForwardState J}, Ok value mid →
        mid.nextForwardMapId = s.nextForwardMapId → (∀ id, s.Accepted id → mid.Accepted id) →
        mid.Accepted (ofs + m.localId) → mid.takeIn encodedBytes ofs maps = (s', error) →
        Ok value s' ∧ s'.nextForwardMapId = s.nextForwardMapId ∧
          (∀ id, s.Accepted id → s'.Accepted id) ∧
          (error = none → ∀ x ∈ m :: maps, s'.Accepted (ofs + x.localId)) := by
      intro mid hmid hnx hkp hnew hin
      obtain ⟨hok, hnx', hkp', hall⟩ := ih hmid hvl hbds hin
      exact ⟨hok, hnx'.trans hnx, fun id hid => hkp' id (hkp id hid),
        fun herr => forall_mem_cons.mpr ⟨hkp' _ hnew, hall herr⟩⟩
    split at hin
    · next hkn =>
      have hacc := h.accepted_of_known hkn
      exact hrs (h.see hacc) rfl (fun _ => id) hacc hin
    · next hnew =>
      split at hin
      · cases hin
        exact absurd rfl (hspc _)
      have hnx : s.nextForwardMapId ≤ ofs + m.localId := by
        refine Nat.not_lt.mp fun hlt => hnew ?_
        simp [known, hlt]
      have hkp := h.keep ⟨m.value, encodedBytes m.value⟩ hnx (by omega) hval
      have hacc : (s.keep (ofs + m.localId) ⟨m.value, encodedBytes m.value⟩).Accepted
          (ofs + m.localId) := accepted_keep.mpr (.inl rfl)
      exact hrs (hkp.see hacc) rfl (fun id hid => accepted_keep.mpr (.inr hid)) hacc hin

/-- The bound is below where the sum saturates. -/
theorem full_iff {bytes : Nat} : s.full bytes = true ↔
    maximumPendingForwardMaps ≤ s.pendingMaps.size ∨
      maximumPendingForwardBytes < s.pendingMapBytes + bytes := by
  have hbd : maximumPendingForwardBytes < maxWord := by decide
  simp [full, saturatingAdd, hbd]

theorem newMaps_see (hkn : s.known ofs localId = true) (maps : List (MapMessage J)) :
    (s.see (ofs, localId)).newMaps ofs maps = s.newMaps ofs maps := by
  have hsm (x : Nat) : (s.see (ofs, localId)).known ofs x = s.known ofs x := by
    rw [Bool.eq_iff_iff, known_iff, known_iff]
    refine ⟨?_, .imp_left (mem_cons_of_mem _)⟩
    rintro (hmem | h)
    · rcases mem_cons.mp hmem with heq | hsn
      · cases heq
        exact known_iff.mp hkn
      · exact .inl hsn
    · exact .inr h
  induction maps with
  | nil => rfl
  | cons m maps ih => simp only [newMaps, hsm, ih]

theorem newMaps_keep (map : PendingMap J) (maps : List (MapMessage J)) :
    ((s.see (ofs, localId)).keep (ofs + localId) map).newMaps ofs maps =
      (s.newMaps ofs maps).filter (·.localId ≠ localId) := by
  have hkn (x : Nat) : ((s.see (ofs, localId)).keep (ofs + localId) map).known ofs x = true ↔
      x = localId ∨ s.known ofs x = true := by
    simp only [known_iff, see, keep, mem_cons, Prod.mk.injEq, true_and, ExtTreeMap.mem_insert,
      Nat.compare_eq_eq, Nat.add_left_cancel_iff]
    grind
  induction maps with
  | nil => rfl
  | cons m maps ih =>
    simp only [newMaps, hkn, ih]
    split
    · rfl
    by_cases hm : m.localId = localId
    · rw [if_pos (.inl hm)]
      split
      · rfl
      · simp [hm]
    · by_cases hnew : s.known ofs m.localId = true
      · rw [if_pos (.inr hnew), if_pos hnew]
      · rw [if_neg (by simp [hm, hnew]), if_neg hnew, filter_cons_of_pos (by simpa using hm),
          List.filter_filter, List.filter_filter]
        simp only [Bool.and_comm]

/-- **A POST is refused for want of space** exactly when the buffer has no room for it. -/
theorem hasRoom_iff {maps : List (MapMessage J)} : s.HasRoom encodedBytes ofs maps ↔
    ∀ message, (s.takeIn encodedBytes ofs maps).2 ≠ some (.capacity message) := by
  induction maps generalizing s with
  | nil => simp [HasRoom, newMaps, ForwardState.takeIn]
  | cons m maps ih =>
    rw [ForwardState.takeIn, HasRoom, newMaps]
    split
    · simp
    split
    · next hkn => rw [← ih, HasRoom, newMaps_see hkn]; rfl
    next hnew =>
    split
    · next hfl =>
      refine iff_of_false ?_ (by simp)
      simp only [isEmpty_cons, length_cons, map_cons, sum_cons, Bool.false_eq_true, false_or]
      have hno := full_iff.mp hfl
      omega
    · next hfr =>
      have hpen : ofs + m.localId ∉ s.pendingMaps :=
        fun hmem => hnew (known_iff.mpr (.inr (.inr hmem)))
      have hft := mt full_iff.mpr hfr
      have hbd : maximumPendingForwardBytes < maxWord := by decide
      rw [← ih, HasRoom, newMaps_keep]
      simp only [keep, see, ExtTreeMap.size_insert, ExtTreeMap.contains_iff_mem, if_neg hpen,
        saturatingAdd]
      generalize (s.newMaps ofs maps).filter (·.localId ≠ m.localId) = rest
      cases rest <;> simp <;> omega

theorem Ok.passOn (h : Ok value s) {map : PendingMap J}
    (hmap : s.pendingMaps[s.nextForwardMapId]? = some map) :
    Ok value (s.passOn map) ∧ (s.passOn map).nextForwardMapId = s.nextForwardMapId + 1 ∧
      (∀ id, s.Accepted id → (s.passOn map).Accepted id) ∧
      (s.passOn map).pendingMaps.size + 1 = s.pendingMaps.size := by
  have hmem : s.nextForwardMapId ∈ s.pendingMaps := by
    rw [ExtTreeMap.mem_iff_isSome_getElem?, hmap]
    rfl
  have hbd := h.bounded _ hmem
  have hnx : (s.passOn map).nextForwardMapId = s.nextForwardMapId + 1 := by
    show min (s.nextForwardMapId + 1) maxWord = _
    omega
  have hpen : ∀ id, id ∈ (s.passOn map).pendingMaps ↔
      s.nextForwardMapId ≠ id ∧ id ∈ s.pendingMaps := by
    simp [ForwardState.passOn]
  have hkp : ∀ id, s.Accepted id → (s.passOn map).Accepted id := by
    rintro id (hlt | hid)
    · exact .inl (hnx ▸ Nat.lt_succ_of_lt hlt)
    · by_cases heq : s.nextForwardMapId = id
      · exact .inl (hnx ▸ heq ▸ Nat.lt_succ_self _)
      · exact .inr ((hpen id).mpr ⟨heq, hid⟩)
  refine ⟨⟨hnx ▸ hbd, fun id m hm => ?_, fun id hid => ?_, fun id hid => ?_,
    fun pair hpr => hkp _ (h.seen pair hpr)⟩, hnx, hkp, ?_⟩
  · simp only [ForwardState.passOn, ExtTreeMap.getElem?_erase] at hm
    split at hm
    · cases hm
    · exact h.values id m hm
  · obtain ⟨hne, hid⟩ := (hpen id).mp hid
    have hle := h.above id hid
    omega
  · exact h.bounded id ((hpen id).mp hid).2
  · have hpos : s.pendingMaps.size ≠ 0 := by
      intro hzr
      have hemp : s.pendingMaps = ∅ := ExtTreeMap.eq_empty_iff_size_eq_zero.mpr hzr
      rw [hemp] at hmem
      exact absurd hmem ExtTreeMap.not_mem_empty
    rw [ForwardState.passOn, ExtTreeMap.size_erase, if_pos (ExtTreeMap.contains_iff_mem.mpr hmem)]
    omega

/-- **Taking maps out** yields the values of the ids it passes, and ends where no map waits. -/
theorem Ok.takeOut {turns : Nat} {s s' : ForwardState J} {ready : List J} (h : Ok value s)
    (hsz : s.pendingMaps.size ≤ turns) (hout : s.takeOut turns = (s', ready)) :
    Ok value s' ∧ (range s.nextForwardMapId).map value ++ ready =
        (range s'.nextForwardMapId).map value ∧
      (∀ id, s.Accepted id → s'.Accepted id) ∧ s'.nextForwardMapId ∉ s'.pendingMaps := by
  induction turns generalizing s s' ready with
  | zero =>
    cases hout
    have hemp : s.pendingMaps = ∅ :=
      ExtTreeMap.eq_empty_iff_size_eq_zero.mpr (Nat.le_zero.mp hsz)
    exact ⟨h, append_nil _, fun _ => id, by simp [hemp]⟩
  | succ turns ih =>
    rw [ForwardState.takeOut] at hout
    split at hout
    · next hnn =>
      cases hout
      refine ⟨h, append_nil _, fun _ => id, fun hmem => ?_⟩
      rw [ExtTreeMap.mem_iff_isSome_getElem?, hnn] at hmem
      cases hmem
    · next map hmap =>
      obtain ⟨hok, hnx, hkp, hsmr⟩ := h.passOn hmap
      obtain ⟨rfl, rfl⟩ := Prod.mk.inj hout
      obtain ⟨hok', hvl, hkp', hdn⟩ := ih hok (by omega) rfl
      refine ⟨hok', ?_, fun id hid => hkp' id (hkp id hid), hdn⟩
      rw [← hvl, hnx, range_succ, map_append, map_singleton, h.values _ _ hmap, append_assoc]
      rfl

end ForwardState

/-! ### Exactly once, in order -/

namespace Channel

variable {value : Nat → J} {encodedBytes : J → Nat} {c c' : Channel J}

/-- The maps still to be handed on. -/
def rest (c : Channel J) : List J := (c.flight.map (·.2)).getD []

structure Inv (value : Nat → J) (c : Channel J) : Prop where
  ok : c.state.Ok value
  flow : c.delivered ++ c.rest = (range c.state.nextForwardMapId).map value
  accepted : ∀ id ∈ c.answered, c.state.Accepted id
  /-- Some id that was not answered is not above what was delivered. -/
  gap : ∃ id ≤ c.delivered.length, id ∉ c.answered
  flight : ∀ post rest, c.flight = some (post, rest) →
    (∀ id ∈ post.ids, c.state.Accepted id) ∧ c.state.nextForwardMapId ∉ c.state.pendingMaps

theorem inv_new : Inv value (new : Channel J) where
  ok := ForwardState.ok_new
  flow := rfl
  accepted := nofun
  gap := ⟨0, Nat.le_refl _, nofun⟩
  flight := nofun

theorem Inv.sendMaps (h : Inv value c) (hfr : c.flight = none) {post : Post J}
    (hvl : ∀ m ∈ post.maps, m.value = value (post.ofs + m.localId))
    (hbds : ∀ id ∈ post.ids, id ≠ maxWord)
    (hrm : c.state.HasRoom encodedBytes post.ofs post.maps) :
    Inv value (c.sendMaps encodedBytes post).1 := by
  have hfl := h.flow
  rw [rest, hfr, map_none, getD_none, append_nil] at hfl
  have hbds' : ∀ m ∈ post.maps, post.ofs + m.localId ≠ maxWord :=
    fun m hm => hbds _ (mem_map_of_mem hm)
  have hspc := ForwardState.hasRoom_iff.mp hrm
  rw [Channel.sendMaps]
  split
  · next state error hin =>
    rw [hin] at hspc
    obtain ⟨hok, hnx, hkp, -⟩ := h.ok.takeIn hvl hbds' hin hspc
    refine ⟨hok, ?_, fun id hid => hkp id (h.accepted id hid), h.gap, ?_⟩
    · rw [rest, hfr]
      simpa [hnx] using hfl
    · intro p rest hp
      exact absurd (hfr.symm.trans hp) (by simp)
  · next state hin =>
    obtain ⟨hok, hnx, hkp, hall⟩ := h.ok.takeIn hvl hbds' hin (by simp)
    obtain ⟨hok', hrdy, hkp', hdn⟩ := hok.takeOut (Nat.le_refl _) rfl
    refine ⟨hok', ?_, fun id hid => hkp' id (hkp id (h.accepted id hid)), h.gap, ?_⟩
    · rw [hfl, ← hnx]
      exact hrdy
    · intro p rest hp
      obtain ⟨rfl, rfl⟩ := Prod.mk.inj (some.inj hp)
      refine ⟨fun id hid => ?_, hdn⟩
      obtain ⟨m, hm, rfl⟩ := mem_map.mp hid
      exact hkp' _ (hall rfl m hm)

/-- **An event that loses nothing** keeps the invariant. -/
theorem Inv.step (h : Inv value c) {e : Event J} {reply : Option ProtocolError}
    (hcst : Consistent value e) (hsmo : Smooth encodedBytes c e)
    (hst : c.step encodedBytes e = some (c', reply)) : Inv value c' := by
  cases e with
  | post form =>
    rw [Channel.step] at hst
    split at hst
    · cases hst
    · cases hst
      exact h
    next post hfr hps =>
    obtain ⟨hspc, hbds⟩ := hsmo post hps
    have hinv := h.sendMaps hfr (hcst post hps) hbds hspc
    rwa [some.inj hst] at hinv
  | hand =>
    rw [Channel.step] at hst
    split at hst
    · next post map left hfl =>
      rw [if_neg (by simp [show c.closed = false from hsmo])] at hst
      cases hst
      obtain ⟨id, hle, hid⟩ := h.gap
      have hfw := h.flow
      rw [rest, hfl] at hfw
      refine ⟨h.ok, ?_, h.accepted, ⟨id, ?_, hid⟩, ?_⟩
      · rw [append_assoc]
        exact hfw
      · rw [length_append]
        omega
      · intro p l hp
        obtain ⟨rfl, rfl⟩ := Prod.mk.inj (some.inj hp)
        exact h.flight _ _ hfl
    · cases hst
  | answer =>
    rw [Channel.step] at hst
    split at hst
    · next post hfl =>
      cases hst
      obtain ⟨hids, hnx⟩ := h.flight _ _ hfl
      have hfw := h.flow
      rw [rest, hfl] at hfw
      have hall : ∀ id ∈ post.ids ++ c.answered, c.state.Accepted id := fun id hid =>
        (mem_append.mp hid).elim (hids id) (h.accepted id)
      refine ⟨h.ok, hfw, hall, ⟨c.state.nextForwardMapId, ?_, fun hid => ?_⟩, nofun⟩
      · have hlen := congrArg length hfw
        simp at hlen
        exact hlen.ge
      · exact (hall _ hid).elim (Nat.lt_irrefl _) hnx
    · cases hst
  | drop => exact hsmo.elim
  | close =>
    cases hst
    exact ⟨h.ok, h.flow, h.accepted, h.gap, h.flight⟩

theorem Run.inv
    (run : Run encodedBytes (fun c e => Consistent value e ∧ Smooth encodedBytes c e) c) :
    Inv value c := by
  induction run with
  | new => exact inv_new
  | step _ hprm hst ih => exact ih.step hprm.1 hprm.2 hst

/-- **Exactly once, in order.** What the backend has received are the values of the ids below some
id, in their order; and it has the map of every id up to which all were answered. -/
theorem forward_exactly_once
    (run : Run encodedBytes (fun c e => Consistent value e ∧ Smooth encodedBytes c e) c) :
    c.delivered = (List.range c.delivered.length).map value ∧
      ∀ id, (∀ k ≤ id, k ∈ c.answered) → id < c.delivered.length := by
  have h := run.inv
  constructor
  · have hpre : c.delivered <+: (range c.state.nextForwardMapId).map value :=
      h.flow ▸ prefix_append _ _
    have hle := hpre.length_le
    rw [length_map, length_range] at hle
    have htk := prefix_iff_eq_take.mp hpre
    rwa [← map_take, take_range, Nat.min_eq_left hle] at htk
  · intro id hall
    obtain ⟨k, hk, hnot⟩ := h.gap
    exact Nat.lt_of_lt_of_le (Nat.lt_of_not_le fun hle => hnot (hall k hle)) hk

/-! ### Sessions played -/

/-- What holds of the POST of a form, if it parses. -/
def parsedDecidable {p : Post J → Prop} [DecidablePred p] (form : List (FormField J)) :
    Decidable (∀ post, parsePost form = .ok post → p post) :=
  match parsePost form with
  | .error _ => isTrue fun _ hps => nomatch hps
  | .ok post => decidable_of_iff (p post)
      ⟨fun hp _ hps => Except.ok.inj hps ▸ hp, fun hall => hall post rfl⟩

instance [DecidableEq J] (value : Nat → J) : DecidablePred (Consistent value)
  | .post form => parsedDecidable form
  | .hand | .answer | .drop | .close => isTrue trivial

instance (encodedBytes : J → Nat) (s : ForwardState J) (ofs : Nat) (maps : List (MapMessage J)) :
    Decidable (s.HasRoom encodedBytes ofs maps) :=
  inferInstanceAs (Decidable (_ ∨ _))

instance (encodedBytes : J → Nat) (c : Channel J) : DecidablePred (Smooth encodedBytes c)
  | .post form => parsedDecidable form
  | .hand => inferInstanceAs (Decidable (c.closed = false))
  | .drop => isFalse id
  | .answer | .close => isTrue trivial

/-- The session after the events, while each is permitted and possible. -/
def play (encodedBytes : J → Nat) (permitted : Channel J → Event J → Prop)
    [∀ c, DecidablePred (permitted c)] : List (Event J) → Channel J → Option (Channel J)
  | [], c => some c
  | e :: es, c =>
    if permitted c e then
      (c.step encodedBytes e).bind fun r => play encodedBytes permitted es r.1
    else none

theorem Run.play {permitted : Channel J → Event J → Prop} [∀ c, DecidablePred (permitted c)] :
    ∀ {es : List (Event J)} {c : Channel J}, Run encodedBytes permitted c →
      c.play encodedBytes permitted es = some c' → Run encodedBytes permitted c'
  | [], _, run, h => some.inj h ▸ run
  | e :: es, c, run, h => by
    rw [Channel.play, ite_none_right_eq_some] at h
    obtain ⟨hprm, h⟩ := h
    obtain ⟨⟨mid, reply⟩, hst, h⟩ := bind_eq_some_iff.mp h
    exact (run.step hprm hst).play h

/-- A POST of one map, whose value is its id. -/
def onePost (id : Nat) : Event Nat :=
  .post [.count (some 1), .ofs (some id), .data (some 0) (.ok id)]

/-- A map that arrived before the one it follows. -/
theorem forward_exactly_once_early : ∃ c : Channel Nat,
    Run (fun _ => 1) (fun c e => Consistent id e ∧ Smooth (fun _ => 1) c e) c ∧
      c.answered = [0, 1] ∧ 1 < c.delivered.length := by
  have hpl : (new.play (fun _ => 1) (fun c e => Consistent id e ∧ Smooth (fun _ => 1) c e)
      [onePost 1, .answer, onePost 0, .hand, .hand, .answer]).any (fun c => c.answered == [0, 1]) =
        true := by decide +kernel
  obtain ⟨c, hc, han⟩ := (any_eq_true _ _).mp hpl
  have run := Run.new.play hc
  have han := eq_of_beq han
  refine ⟨c, run, han, (forward_exactly_once run).2 1 fun k hk => ?_⟩
  rw [han]
  interval_cases k <;> decide

/-- **A dropped map.** The POST of the first map is dropped while it waits for the backend and sent
again: it is answered with success, the map is never handed on, and the backend goes on with the
second. -/
theorem dropped_map : ∃ c : Channel Nat, Run (fun _ => 1) (fun _ e => Consistent id e) c ∧
    c.flight = none ∧ c.answered = [1, 0] ∧ c.delivered = [1] := by
  have hpl : (new.play (fun _ => 1) (fun _ e => Consistent id e)
      [onePost 0, .drop, onePost 0, .answer, onePost 1, .hand, .answer]).any (fun c =>
        c.flight.isNone && c.answered == [1, 0] && c.delivered == [1]) = true := by decide +kernel
  obtain ⟨c, hc, h⟩ := (any_eq_true _ _).mp hpl
  simp only [Bool.and_eq_true, isNone_iff_eq_none, beq_iff_eq] at h
  exact ⟨c, Run.new.play hc, h.1.1, h.1.2, h.2⟩

end Channel

end Firenook.Webchannel
