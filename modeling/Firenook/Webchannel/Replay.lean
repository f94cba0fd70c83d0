import Firenook.Support.Fallible
import Firenook.Support.Frames
import Firenook.Webchannel.Forward

/-!
# WebChannel — responses and their replay

What a backend answers is numbered and kept until the client acknowledges it (`Session::enqueue`,
`acknowledge`, `arrays_after`). A client reads it on a backchannel: a stream that is sent more
frames as answers come, or a long poll that is sent one. A backchannel can be lost anywhere; the
client opens the next, and sends its forward POSTs, with the id of the last array it received.

`World` is a session together with such a client. `log` are the payloads in the order they were
enqueued, so the array with id `n + 1` carries `log[n]`.

**Replay** (`replayed_in_order`). Over all backchannels the client receives the arrays from id 1 on,
in order, with their payloads; the buffer holds exactly the ids above the highest acknowledged one
and below the next, and its byte count is their sizes' sum. This holds while ids are left: the id
counter saturates, and the last id is given again and again (`last_id_again`).
-/

namespace Firenook.Webchannel

open List Frames

variable {n aid : Nat} {J : Type} {frames : List (List (Nat × J))}

/-! ### The buffer -/

def maximumUnacknowledgedArrays : Nat := 4096

def maximumUnacknowledgedBytes : Nat := 64 * 1024 * 1024

structure ArrayRecord (J : Type) where
  id : Nat
  payload : J
  encodedBytes : Nat

/-- The response part of `SessionState`. -/
structure ReplayState (J : Type) where
  arrays : List (ArrayRecord J)
  arrayBytes : Nat
  nextArrayId : Nat
  acknowledgedArrayId : Nat

namespace ReplayState

def new : ReplayState J := ⟨[], 0, 1, 0⟩

def enqueue (encodedBytes : J → Nat) (s : ReplayState J) (payload : J) :
    Except ProtocolError (ReplayState J) :=
  if maximumUnacknowledgedArrays ≤ s.arrays.length ||
      maximumUnacknowledgedBytes < saturatingAdd s.arrayBytes (encodedBytes payload) then
    .error (.capacity "WebChannel unacknowledged replay buffer is full")
  else
    .ok
      { s with
        nextArrayId := saturatingAdd s.nextArrayId 1
        arrayBytes := saturatingAdd s.arrayBytes (encodedBytes payload)
        arrays := s.arrays ++ [⟨s.nextArrayId, payload, encodedBytes payload⟩] }

/-- The loop of `acknowledge`, on the arrays and their bytes. -/
def release (aid : Nat) : List (ArrayRecord J) → Nat → List (ArrayRecord J) × Nat
  | [], bytes => ([], bytes)
  | array :: rest, bytes =>
    if array.id ≤ aid then release aid rest (bytes - array.encodedBytes)
    else (array :: rest, bytes)

def acknowledge (s : ReplayState J) (aid : Nat) : ReplayState J :=
  let (arrays, arrayBytes) := release aid s.arrays s.arrayBytes
  { s with acknowledgedArrayId := max s.acknowledgedArrayId aid, arrays, arrayBytes }

def arraysAfter (s : ReplayState J) (aid : Nat) : List (ArrayRecord J) :=
  s.arrays.filter fun array => aid < array.id

end ReplayState

/-! ### A client and its backchannels -/

/-- How arrays are written as JSON text and read back. -/
structure JsonText (J : Type) where
  print : List (Nat × J) → List Char
  read : List Char → Option (List (Nat × J))
  read_print : ∀ arrays, read (print arrays) = some arrays

def encodeArraysFrame (json : JsonText J) (arrays : List (ArrayRecord J)) : List Char :=
  Frames.frame (json.print (arrays.map fun a => (a.id, a.payload)))

/-- A backchannel: what the server has sent and up to which id, and how much of it has arrived. -/
structure Backchannel where
  streaming : Bool
  cursor : Nat
  finished : Bool
  sent : List Char
  got : Nat

/-- The arrays of the whole frames that have arrived. -/
def Backchannel.arrays (json : JsonText J) (b : Backchannel) : List (Nat × J) :=
  (Frames.readFrames b.got (b.sent.take b.got)).flatMap fun text => (json.read text).getD []

/-- A session, its client's open backchannel, and what the client has from earlier ones. -/
structure World (J : Type) where
  session : ReplayState J
  log : List J
  kept : List (Nat × J)
  back : Option Backchannel

inductive Signal (J : Type) where
  /-- A message of the backend, an error or a noop. -/
  | enqueue (payload : J)
  /-- A forward POST with its `AID`. -/
  | post (aid : Nat)
  /-- A GET, and the noop a streaming one begins with. -/
  | get (streaming : Bool) (noop : J)
  /-- The stream is sent what is new. -/
  | pump
  /-- The long poll is answered, with nothing when the session ends or the buffer is full. -/
  | answer (empty : Bool)
  /-- Some characters have arrived. -/
  | arrive (count : Nat)
  | lose

namespace World

variable (json : JsonText J) (encodedBytes : J → Nat)

def new : World J := ⟨.new, [], [], none⟩

/-- Everything the client has received. -/
def received (w : World J) : List (Nat × J) := w.kept ++ (w.back.elim [] (·.arrays json))

/-- The id of the last array the client received; the handshake's is zero. -/
def last (w : World J) : Nat := ((w.received json).getLast?.map (·.1)).getD 0

def enqueue (w : World J) (payload : J) : Option (World J) :=
  (w.session.enqueue encodedBytes payload).toOption.map fun session =>
    { w with session, log := w.log ++ [payload] }

/-- `get_channel` with the client's last id. -/
def get (w : World J) (streaming : Bool) (noop : J) : Option (World J) :=
  let aid := w.last json
  let w := { w with session := w.session.acknowledge aid }
  let back := some ⟨streaming, aid, false, [], 0⟩
  if streaming then
    match w.enqueue encodedBytes noop with
    | none => some w
    | some w => some { w with back }
  else some { w with back }

/-- What a signal does; `none` where it cannot happen. A payload the buffer has no room for is
refused and leaves everything. -/
def step (w : World J) : Signal J → Option (World J)
  | .enqueue payload => some ((w.enqueue encodedBytes payload).getD w)
  | .post aid => some { w with session := w.session.acknowledge aid }
  | .get streaming noop => if w.back.isNone then w.get json encodedBytes streaming noop else none
  | .pump =>
    w.back.bind fun b =>
      match b.streaming, (w.session.arraysAfter b.cursor).getLast? with
      | true, some array =>
        let sent := b.sent ++ encodeArraysFrame json (w.session.arraysAfter b.cursor)
        some { w with back := some { b with cursor := array.id, sent } }
      | _, _ => none
  | .answer empty =>
    w.back.bind fun b =>
      if !b.streaming && !b.finished then
        let arrays := if empty then [] else w.session.arraysAfter b.cursor
        let sent := b.sent ++ encodeArraysFrame json arrays
        some { w with back := some { b with finished := true, sent } }
      else none
  | .arrive count =>
    w.back.bind fun b =>
      if b.got ≤ count ∧ count ≤ b.sent.length then
        some { w with back := some { b with got := count } }
      else none
  | .lose => some { w with kept := w.received json, back := none }

/-- The worlds that permitted signals reach. -/
inductive Run (permitted : World J → Signal J → Prop) : World J → Prop where
  | new : Run permitted new
  | step {w w' : World J} {signal : Signal J} (run : Run permitted w)
      (hpermitted : permitted w signal) (h : w.step json encodedBytes signal = some w') :
      Run permitted w'

/-- A forward POST names an array the client has received: the last one, when it was sent. -/
def Honest (w : World J) : Signal J → Prop
  | .post aid => aid ≤ w.last json
  | _ => True

/-- An id is left for another array. -/
def IdsLeft (w : World J) : Signal J → Prop
  | .enqueue _ | .get true _ => w.session.nextArrayId < maxWord
  | _ => True

end World

/-! ### Numbered payloads -/

/-- Payloads as arrays with the ids after `n`. -/
def numbered (n : Nat) (log : List J) : List (Nat × J) :=
  (log.zipIdx (n + 1)).map fun p => (p.2, p.1)

@[simp] theorem length_numbered (n : Nat) (log : List J) :
    (numbered n log).length = log.length := by
  rw [numbered, length_map, length_zipIdx]

theorem numbered_cons (n : Nat) (payload : J) (log : List J) :
    numbered n (payload :: log) = (n + 1, payload) :: numbered (n + 1) log := by
  rw [numbered, zipIdx_cons, map_cons, numbered]

theorem numbered_append (n : Nat) (log more : List J) :
    numbered n (log ++ more) = numbered n log ++ numbered (n + log.length) more := by
  rw [numbered, zipIdx_append, map_append]
  congr 3
  omega

/-- Everything after the first `k`. -/
theorem numbered_split (log : List J) {k : Nat} (hk : k ≤ log.length) :
    numbered 0 log = numbered 0 (log.take k) ++ numbered k (log.drop k) := by
  conv_lhs => rw [← take_append_drop k log]
  rw [numbered_append, length_take, Nat.min_eq_left hk, Nat.zero_add]

theorem map_fst_numbered (n : Nat) (log : List J) :
    (numbered n log).map (·.1) = range' (n + 1) log.length := by
  induction log generalizing n with
  | nil => rfl
  | cons payload log ih => rw [numbered_cons, map_cons, ih, length_cons, range'_succ]

theorem map_snd_numbered (n : Nat) (log : List J) : (numbered n log).map (·.2) = log := by
  induction log generalizing n with
  | nil => rfl
  | cons payload log ih => rw [numbered_cons, map_cons, ih]

section

variable {received : List (Nat × J)} {log : List J} (h : received <+: numbered 0 log)

include h

/-- What begins like the arrays from id 1 on is made of the first payloads. -/
theorem numbered_of_prefix :
    received.length ≤ log.length ∧ received = numbered 0 (log.take received.length) := by
  have hle : received.length ≤ log.length := by simpa using h.length_le
  have htk := prefix_iff_eq_take.mp h
  rw [numbered_split log hle, take_left' (by simp [hle])] at htk
  exact ⟨hle, htk⟩

theorem last_numbered : (received.getLast?.map (·.1)).getD 0 = received.length := by
  obtain ⟨hle, hrcv⟩ := numbered_of_prefix h
  rw [hrcv, ← getLast?_map, map_fst_numbered, length_numbered]
  cases hlen : (log.take received.length).length with
  | zero => rfl
  | succ m =>
    rw [range'_concat]
    simp [Nat.add_comm]

end

def recordOf (encodedBytes : J → Nat) (array : Nat × J) : ArrayRecord J :=
  ⟨array.1, array.2, encodedBytes array.2⟩

/-- The records of payloads with the ids after `n`. -/
def records (encodedBytes : J → Nat) (n : Nat) (log : List J) : List (ArrayRecord J) :=
  (numbered n log).map (recordOf encodedBytes)

def sizes (encodedBytes : J → Nat) (log : List J) : Nat := (log.map encodedBytes).sum

section Records

variable (encodedBytes : J → Nat)

theorem records_cons (n : Nat) (payload : J) (log : List J) :
    records encodedBytes n (payload :: log) =
      ⟨n + 1, payload, encodedBytes payload⟩ :: records encodedBytes (n + 1) log := by
  rfl

theorem records_concat (n : Nat) (log : List J) (payload : J) :
    records encodedBytes n (log ++ [payload]) =
      records encodedBytes n log ++ [⟨n + log.length + 1, payload, encodedBytes payload⟩] := by
  rw [records, numbered_append, map_append]
  rfl

theorem map_recordOf (n : Nat) (log : List J) :
    (records encodedBytes n log).map (fun a => (a.id, a.payload)) = numbered n log := by
  rw [records, map_map]
  exact map_id _

theorem last_records {log : List J} {array : ArrayRecord J}
    (h : (records encodedBytes n log).getLast? = some array) : array.id = n + log.length := by
  rcases eq_nil_or_concat log with rfl | ⟨init, payload, rfl⟩
  · cases h
  rw [concat_eq_append] at h ⊢
  rw [records_concat, getLast?_concat] at h
  rw [← Option.some.inj h, length_append]
  rfl

/-- The arrays above an id are those after it. -/
theorem filter_records : ∀ (n aid : Nat) (log : List J), n ≤ aid →
    (records encodedBytes n log).filter (fun a => aid < a.id) =
      records encodedBytes aid (log.drop (aid - n))
  | n, aid, [], _ => by
    rw [drop_nil]
    rfl
  | n, aid, payload :: log, h => by
    rcases Nat.eq_or_lt_of_le h with rfl | hlt
    · rw [Nat.sub_self, drop_zero, filter_eq_self]
      intro a ha
      obtain ⟨⟨i, q⟩, hmem, rfl⟩ := mem_map.mp ha
      have hi : i ∈ (numbered n (payload :: log)).map (·.1) := mem_map_of_mem hmem
      rw [map_fst_numbered, mem_range'_1] at hi
      exact decide_eq_true (show n < i by omega)
    · rw [records_cons, filter_cons_of_neg (by simpa using Nat.succ_le_of_lt hlt),
        filter_records (n + 1) aid log hlt, show aid - n = (aid - (n + 1)) + 1 by omega,
        drop_succ_cons]

/-- Acknowledging an id releases the arrays up to it, and their sizes. -/
theorem release_records : ∀ (n aid : Nat) (log : List J), aid ≤ n + log.length →
    ReplayState.release aid (records encodedBytes n log) (sizes encodedBytes log) =
      (records encodedBytes (max n aid) (log.drop (aid - n)),
        sizes encodedBytes (log.drop (aid - n)))
  | n, aid, [], h => by
    rw [drop_nil]
    rfl
  | n, aid, payload :: log, h => by
    rw [records_cons, ReplayState.release]
    split
    · next hle =>
      have hbyt : sizes encodedBytes (payload :: log) - encodedBytes payload =
          sizes encodedBytes log := Nat.add_sub_cancel_left _ _
      have hle : n + 1 ≤ aid := hle
      rw [hbyt, release_records (n + 1) aid log (by rw [length_cons] at h; omega),
        show aid - n = (aid - (n + 1)) + 1 by omega, drop_succ_cons,
        Nat.max_eq_right hle, Nat.max_eq_right (by omega)]
    · next hlt =>
      have hlt : aid < n + 1 := Nat.lt_of_not_le hlt
      rw [show aid - n = 0 by omega, drop_zero, Nat.max_eq_left (by omega), records_cons]

end Records

/-! ### The buffer's invariant -/

namespace ReplayState

/-- The buffer of a session that has enqueued `log`. -/
structure Holds (encodedBytes : J → Nat) (log : List J) (s : ReplayState J) : Prop where
  next : s.nextArrayId = log.length + 1
  acknowledged : s.acknowledgedArrayId ≤ log.length
  arrays : s.arrays = records encodedBytes s.acknowledgedArrayId
    (log.drop s.acknowledgedArrayId)
  bytes : s.arrayBytes = sizes encodedBytes (log.drop s.acknowledgedArrayId)

variable {encodedBytes : J → Nat} {log : List J} {s s' : ReplayState J}

section

variable (h : Holds encodedBytes log s)

include h

theorem Holds.enqueue {payload : J} (hids : s.nextArrayId < maxWord)
    (henq : s.enqueue encodedBytes payload = .ok s') :
    Holds encodedBytes (log ++ [payload]) s' ∧ s'.acknowledgedArrayId = s.acknowledgedArrayId := by
  rw [ReplayState.enqueue] at henq
  split at henq
  · cases henq
  next hrm =>
  cases henq
  simp only [Bool.or_eq_true, decide_eq_true_eq, not_or] at hrm
  have hbyt : saturatingAdd s.arrayBytes (encodedBytes payload) =
      s.arrayBytes + encodedBytes payload := by
    have hsml := hrm.2
    rw [saturatingAdd, maxWord, maximumUnacknowledgedBytes] at hsml
    rw [saturatingAdd, maxWord]
    omega
  have hnx : saturatingAdd s.nextArrayId 1 = s.nextArrayId + 1 := by
    rw [saturatingAdd]
    omega
  have hdr : (log ++ [payload]).drop s.acknowledgedArrayId =
      log.drop s.acknowledgedArrayId ++ [payload] :=
    drop_append_of_le_length h.acknowledged
  refine ⟨⟨?_, ?_, ?_, ?_⟩, rfl⟩
  · show saturatingAdd s.nextArrayId 1 = _
    rw [hnx, h.next, length_append]
    rfl
  · exact h.acknowledged.trans (by simp)
  · have hack := h.acknowledged
    rw [hdr, records_concat, ← h.arrays, length_drop, h.next,
      show s.acknowledgedArrayId + (log.length - s.acknowledgedArrayId) = log.length by omega]
  · rw [hbyt, h.bytes, hdr, sizes, sizes, map_append, sum_append]
    simp

theorem Holds.acknowledge (haid : aid ≤ log.length) :
    Holds encodedBytes log (s.acknowledge aid) := by
  have hack := h.acknowledged
  have hrel := release_records encodedBytes s.acknowledgedArrayId aid
    (log.drop s.acknowledgedArrayId) (by rw [length_drop]; omega)
  rw [← h.arrays, ← h.bytes, drop_drop, show s.acknowledgedArrayId + (aid - s.acknowledgedArrayId) =
      max s.acknowledgedArrayId aid by omega] at hrel
  rw [ReplayState.acknowledge, hrel]
  exact ⟨h.next, Nat.max_le.mpr ⟨hack, haid⟩, rfl, rfl⟩

/-- **The arrays after an acknowledged id** are all that were enqueued after it. -/
theorem Holds.arraysAfter (haid : s.acknowledgedArrayId ≤ aid) :
    s.arraysAfter aid = records encodedBytes aid (log.drop aid) := by
  rw [ReplayState.arraysAfter, h.arrays, filter_records encodedBytes _ _ _ haid, drop_drop,
    Nat.add_sub_cancel' haid]

end

end ReplayState

/-! ### The client's invariant -/

theorem flatten_isPrefix {α : Type} {s t : List (List α)} (h : s <+: t) :
    s.flatten <+: t.flatten := by
  obtain ⟨more, rfl⟩ := h
  rw [flatten_append]
  exact prefix_append _ _

namespace Backchannel

variable {b : Backchannel}

/-- The arrays that arrived are those of the frames sent, up to the last whole one. -/
theorem arrays_eq (json : JsonText J)
    (hsn : b.sent = (frames.map json.print).flatMap Frames.frame) :
    b.arrays json = (frames.take (Frames.whole (frames.map json.print) b.got)).flatten := by
  rw [arrays, hsn, readFrames_take (Nat.le_refl _), ← map_take, flatMap_map]
  simp only [json.read_print, Option.getD_some]
  exact flatMap_id

end Backchannel

namespace World

/-- What the server has sent on a backchannel follows what the client had when it opened it. -/
structure Follows (json : JsonText J) (log : List J) (kept : List (Nat × J)) (b : Backchannel)
    (frames : List (List (Nat × J))) : Prop where
  sent : b.sent = (frames.map json.print).flatMap Frames.frame
  got : b.got ≤ b.sent.length
  numbered : kept ++ frames.flatten <+: numbered 0 log
  cursor : b.finished = false → b.cursor = (kept ++ frames.flatten).length
  stream : b.streaming = true → b.finished = false

structure Inv (json : JsonText J) (encodedBytes : J → Nat) (w : World J) : Prop where
  holds : w.session.Holds encodedBytes w.log
  received : w.received json <+: numbered 0 w.log
  acknowledged : w.session.acknowledgedArrayId ≤ (w.received json).length
  back : ∀ b, w.back = some b → ∃ frames, Follows json w.log w.kept b frames

section

variable {json : JsonText J} {encodedBytes : J → Nat} {w w' : World J}

theorem inv_new : Inv json encodedBytes (new : World J) :=
  ⟨⟨rfl, Nat.le_refl _, rfl, rfl⟩, nil_prefix, Nat.le_refl _, nofun⟩

section

variable (h : Inv json encodedBytes w)

include h

theorem Inv.last : w.last json = (w.received json).length :=
  last_numbered h.received

theorem Inv.acknowledge (haid : aid ≤ w.last json) :
    Inv json encodedBytes { w with session := w.session.acknowledge aid } := by
  rw [h.last] at haid
  exact ⟨h.holds.acknowledge (haid.trans (by simpa using h.received.length_le)), h.received,
    Nat.max_le.mpr ⟨h.acknowledged, haid⟩, h.back⟩

theorem Inv.enqueue {payload : J} (hids : w.session.nextArrayId < maxWord)
    (henq : w.enqueue encodedBytes payload = some w') :
    Inv json encodedBytes w' ∧ w'.kept = w.kept ∧ w'.back = w.back := by
  obtain ⟨session, hses, rfl⟩ := Option.map_eq_some_iff.mp henq
  obtain ⟨hhol, hack⟩ := h.holds.enqueue hids (Fallible.toOption_eq_some.mp hses)
  have hgr : numbered 0 w.log <+: numbered 0 (w.log ++ [payload]) :=
    numbered_append 0 w.log [payload] ▸ prefix_append _ _
  refine ⟨⟨hhol, h.received.trans hgr, hack ▸ h.acknowledged, fun b hb => ?_⟩, rfl, rfl⟩
  obtain ⟨frames, hf⟩ := h.back b hb
  exact ⟨frames, hf.sent, hf.got, hf.numbered.trans hgr, hf.cursor, hf.stream⟩

/-- A backchannel opened at the last array the client has. -/
theorem Inv.opened (hnn : w.back = none) (streaming : Bool) :
    Inv json encodedBytes { w with back := some ⟨streaming, w.kept.length, false, [], 0⟩ } := by
  have hsm : w.received json = w.kept := by
    rw [World.received, hnn]
    exact append_nil _
  have hop : World.received json { w with back := some ⟨streaming, w.kept.length, false, [], 0⟩ } =
      w.kept := append_nil _
  refine ⟨h.holds, ?_, ?_, fun b hb => ⟨[], ?_⟩⟩
  · rw [hop, ← hsm]
    exact h.received
  · rw [hop, ← hsm]
    exact h.acknowledged
  · obtain rfl := Option.some.inj hb
    exact ⟨rfl, Nat.le_refl _, by simpa [hsm] using h.received, fun _ => by simp, fun _ => rfl⟩

theorem Inv.get (hnn : w.back = none) {streaming : Bool} {noop : J}
    (hids : w.IdsLeft (.get streaming noop))
    (hget : w.get json encodedBytes streaming noop = some w') : Inv json encodedBytes w' := by
  have hlast : w.last json = w.kept.length := by
    rw [h.last, World.received, hnn]
    simp
  have hack := h.acknowledge (Nat.le_refl _)
  rw [hlast] at hack
  simp only [World.get, hlast] at hget
  split at hget
  · next hst =>
    subst hst
    split at hget
    · cases hget
      exact hack
    next mid hmid =>
    cases hget
    obtain ⟨hinv, hkp, hbc⟩ := hack.enqueue hids hmid
    have hopn := hinv.opened (hbc.trans hnn) true
    rwa [congrArg length hkp] at hopn
  · cases hget
    exact hack.opened hnn streaming

/-- **A frame is sent** with everything after the arrays that were sent before. -/
theorem Inv.send {b' : Backchannel}
    (hf : Follows json w.log w.kept b frames) (hb : w.back = some b) {arrays : List (ArrayRecord J)}
    (hsn : b'.sent = b.sent ++ encodeArraysFrame json arrays) (hgot : b'.got = b.got)
    (hnum : w.kept ++ (frames.flatten ++ arrays.map fun a => (a.id,
      a.payload)) <+: numbered 0 w.log)
    (hcsr : b'.finished = false → b'.cursor =
      (w.kept ++ (frames.flatten ++ arrays.map fun a => (a.id, a.payload))).length)
    (hstr : b'.streaming = true → b'.finished = false) :
    Inv json encodedBytes { w with back := some b' } := by
  have hsm : World.received json { w with back := some b' } = w.received json := by
    rw [World.received, World.received, hb]
    show w.kept ++ b'.arrays json = w.kept ++ b.arrays json
    rw [Backchannel.arrays, Backchannel.arrays, hsn, hgot, take_append_of_le_length hf.got]
  refine ⟨h.holds, hsm ▸ h.received, hsm ▸ h.acknowledged, fun b₀ hb₀ => ?_⟩
  obtain rfl := Option.some.inj hb₀
  refine ⟨frames ++ [arrays.map fun a => (a.id, a.payload)], ?_, ?_, ?_, ?_, hstr⟩
  · rw [hsn, hf.sent]
    simp [encodeArraysFrame]
  · rw [hgot, hsn, length_append]
    exact hf.got.trans (Nat.le_add_right _ _)
  · simpa using hnum
  · simpa using hcsr

/-- What is not yet sent on an open backchannel: everything after its cursor. -/
theorem Inv.unsent (hf : Follows json w.log w.kept b frames)
    (hb : w.back = some b) (hop : b.finished = false) :
    w.session.arraysAfter b.cursor = records encodedBytes b.cursor (w.log.drop b.cursor) ∧
      b.cursor ≤ w.log.length ∧
      w.kept ++ (frames.flatten ++ (w.session.arraysAfter b.cursor).map fun a => (a.id, a.payload)) =
        numbered 0 w.log := by
  have hcsr := hf.cursor hop
  obtain ⟨hle, hsn⟩ := numbered_of_prefix hf.numbered
  rw [← hcsr] at hle hsn
  have hack : w.session.acknowledgedArrayId ≤ b.cursor := by
    refine h.acknowledged.trans ?_
    rw [World.received, hb, hcsr]
    show (w.kept ++ b.arrays json).length ≤ _
    rw [Backchannel.arrays_eq json hf.sent, length_append, length_append]
    refine Nat.add_le_add_left (List.IsPrefix.length_le ?_) _
    exact flatten_isPrefix <| take_prefix _ frames
  have haft := h.holds.arraysAfter hack
  refine ⟨haft, hle, ?_⟩
  rw [haft, map_recordOf, ← append_assoc, hsn, ← numbered_split w.log hle]

theorem Inv.pump (hst : w.step json encodedBytes .pump = some w') : Inv json encodedBytes w' := by
  obtain ⟨b, hb, hst⟩ := Option.bind_eq_some_iff.mp hst
  obtain ⟨frames, hf⟩ := h.back b hb
  split at hst
  · next array hsr harr =>
    cases hst
    have hop := hf.stream hsr
    obtain ⟨haft, hle, hall⟩ := h.unsent hf hb hop
    refine h.send hf hb rfl rfl (hall ▸ prefix_refl _) (fun _ => ?_) fun _ => hop
    rw [haft] at harr
    have hlast := last_records encodedBytes harr
    rw [length_drop] at hlast
    rw [hall, length_numbered]
    show array.id = w.log.length
    omega
  · cases hst

theorem Inv.answer {empty : Bool} (hst : w.step json encodedBytes (.answer empty) = some w') :
    Inv json encodedBytes w' := by
  obtain ⟨b, hb, hst⟩ := Option.bind_eq_some_iff.mp hst
  obtain ⟨frames, hf⟩ := h.back b hb
  rw [Option.ite_none_right_eq_some, Bool.and_eq_true, Bool.not_eq_true', Bool.not_eq_true'] at hst
  obtain ⟨⟨hpl, hop⟩, hst⟩ := hst
  cases hst
  refine h.send hf hb rfl rfl ?_ nofun fun hsr => ?_
  · split
    · simpa using hf.numbered
    · exact (h.unsent hf hb hop).2.2 ▸ prefix_refl _
  · exact absurd (hpl.symm.trans hsr) (by decide)

theorem Inv.arrive {count : Nat} (hst : w.step json encodedBytes (.arrive count) = some w') :
    Inv json encodedBytes w' := by
  obtain ⟨b, hb, hst⟩ := Option.bind_eq_some_iff.mp hst
  obtain ⟨frames, hf⟩ := h.back b hb
  rw [Option.ite_none_right_eq_some] at hst
  obtain ⟨⟨hmr, hle⟩, hst⟩ := hst
  cases hst
  have hbef : w.received json = w.kept ++
      (frames.take (whole (frames.map json.print) b.got)).flatten := by
    rw [World.received, hb, ← Backchannel.arrays_eq json hf.sent]
    rfl
  have haft : World.received json { w with back := some { b with got := count } } = w.kept ++
      (frames.take (whole (frames.map json.print) count)).flatten := by
    show w.kept ++ Backchannel.arrays json { b with got := count } = _
    rw [Backchannel.arrays_eq json (show { b with got := count }.sent = _ from hf.sent)]
  refine ⟨h.holds, ?_, ?_, fun b₀ hb₀ => ?_⟩
  · rw [haft]
    refine List.IsPrefix.trans ((prefix_append_right_inj _).mpr ?_) hf.numbered
    exact flatten_isPrefix <| take_prefix _ frames
  · refine h.acknowledged.trans (List.IsPrefix.length_le ?_)
    rw [hbef, haft]
    refine (prefix_append_right_inj _).mpr (flatten_isPrefix ?_)
    exact take_prefix_take_left (whole_mono _ hmr)
  · obtain rfl := Option.some.inj hb₀
    exact ⟨frames, hf.sent, hle, hf.numbered, hf.cursor, hf.stream⟩

theorem Inv.lose : Inv json encodedBytes { w with kept := w.received json, back := none } := by
  have hsm : World.received json { w with kept := w.received json, back := none } =
      w.received json := append_nil _
  refine ⟨h.holds, ?_, ?_, nofun⟩
  · rw [hsm]
    exact h.received
  · rw [hsm]
    exact h.acknowledged

/-- **Every signal of an honest client**, while ids are left, keeps the invariant. -/
theorem Inv.step {signal : Signal J} (hhon : w.Honest json signal) (hids : w.IdsLeft signal)
    (hst : w.step json encodedBytes signal = some w') : Inv json encodedBytes w' := by
  cases signal with
  | enqueue payload =>
    obtain rfl := Option.some.inj hst
    cases henq : w.enqueue encodedBytes payload with
    | none => exact h
    | some w' => exact (h.enqueue hids henq).1
  | post aid =>
    obtain rfl := Option.some.inj hst
    exact h.acknowledge hhon
  | get streaming noop =>
    rw [World.step, Option.ite_none_right_eq_some, Option.isNone_iff_eq_none] at hst
    exact h.get hst.1 hids hst.2
  | pump => exact h.pump hst
  | answer empty => exact h.answer hst
  | arrive count => exact h.arrive hst
  | lose =>
    obtain rfl := Option.some.inj hst
    exact h.lose

end

theorem Run.inv
    (run : Run json encodedBytes (fun w signal => w.Honest json signal ∧ w.IdsLeft signal) w) :
    Inv json encodedBytes w := by
  induction run with
  | new => exact inv_new
  | step _ hprm hst ih => exact ih.step hprm.1 hprm.2 hst

/-- **Replay.** The client has received the arrays with ids 1, 2, 3, …, carrying the payloads in the
order they were enqueued. The buffer holds exactly the ids above the highest acknowledged one and
below the next, and its bytes are the sum of their sizes. -/
theorem replayed_in_order
    (run : Run json encodedBytes (fun w signal => w.Honest json signal ∧ w.IdsLeft signal) w) :
    (w.received json).map (·.1) = List.range' 1 (w.received json).length ∧
    (w.received json).map (·.2) <+: w.log ∧
    w.session.nextArrayId = w.log.length + 1 ∧
    w.session.arrays.map (·.id) = List.range' (w.session.acknowledgedArrayId + 1)
      (w.session.nextArrayId - (w.session.acknowledgedArrayId + 1)) ∧
    w.session.arrays.map (·.payload) = w.log.drop w.session.acknowledgedArrayId ∧
    w.session.arrayBytes = (w.session.arrays.map fun a => encodedBytes a.payload).sum := by
  have h := run.inv
  obtain ⟨hle, hrcv⟩ := numbered_of_prefix h.received
  have hprs := congrArg (map fun a => (a.id, a.payload)) h.holds.arrays
  rw [map_recordOf] at hprs
  have hpy : w.session.arrays.map (·.payload) = w.log.drop w.session.acknowledgedArrayId := by
    have hsec := congrArg (map (·.2)) hprs
    rwa [map_map, map_snd_numbered] at hsec
  refine ⟨?_, ?_, h.holds.next, ?_, hpy, ?_⟩
  · rw [hrcv, map_fst_numbered, length_numbered]
  · rw [hrcv, map_snd_numbered]
    exact take_prefix _ _
  · have hfst := congrArg (map (·.1)) hprs
    rw [map_map, map_fst_numbered, length_drop] at hfst
    rw [h.holds.next, show w.log.length + 1 - (w.session.acknowledgedArrayId + 1) =
      w.log.length - w.session.acknowledgedArrayId by omega]
    exact hfst
  · rw [h.holds.bytes, sizes, ← hpy, map_map]
    rfl

/-! ### The last id -/

theorem Run.mono {permitted permitted' : World J → Signal J → Prop}
    (hmn : ∀ w signal, permitted w signal → permitted' w signal)
    (run : Run json encodedBytes permitted w) : Run json encodedBytes permitted' w := by
  induction run with
  | new => exact .new
  | step _ hprm hst ih => exact ih.step (hmn _ _ hprm) hst

theorem Run.next {permitted : World J → Signal J → Prop}
    (run : Run json encodedBytes permitted w) (signal : Signal J)
    (h : w.step json encodedBytes signal = some w') (hprm : permitted w signal) :
    Run json encodedBytes permitted w' :=
  run.step hprm h

/-- The client has everything and has said so. -/
structure CaughtUp (json : JsonText J) (n : Nat) (w : World J) : Prop where
  log : w.log.length = n
  back : w.back = none
  received : (w.received json).length = n
  acknowledged : w.session.acknowledgedArrayId = n

/-- One more array waits, with a backchannel on its way. -/
def waiting (w : World J) (n : Nat) (payload : J) (back : Option Backchannel) : World J :=
  { w with
    log := w.log ++ [payload]
    session := ⟨[⟨n + 1, payload, 1⟩], 1, saturatingAdd (n + 1) 1, n⟩
    back }

theorem CaughtUp.enqueue (hinv : Inv json (fun _ => 1) w) (h : CaughtUp json n w) (payload : J) :
    w.step json (fun _ => 1) (.enqueue payload) = some (w.waiting n payload none) := by
  have hdr : w.log.drop w.session.acknowledgedArrayId = [] := by
    rw [h.acknowledged, ← h.log, drop_length]
  have har : w.session.arrays = [] := by
    rw [hinv.holds.arrays, hdr]
    rfl
  have hbyt : w.session.arrayBytes = 0 := by
    rw [hinv.holds.bytes, hdr]
    rfl
  have hnx : w.session.nextArrayId = n + 1 := by rw [hinv.holds.next, h.log]
  rw [World.step, World.enqueue, ReplayState.enqueue, har, hbyt, hnx, h.acknowledged, ← h.back]
  rfl

/-- One more array: enqueued, polled for, received and acknowledged. -/
theorem CaughtUp.succ (payload : J) (hn : n + 1 < maxWord)
    (run : Run json (fun _ => 1) (fun w signal => w.Honest json signal ∧ w.IdsLeft signal) w)
    (h : CaughtUp json n w) :
    ∃ w', Run json (fun _ => 1) (fun w signal => w.Honest json signal ∧ w.IdsLeft signal) w' ∧
      CaughtUp json (n + 1) w' := by
  have hnx : w.session.nextArrayId = n + 1 := by rw [run.inv.holds.next, h.log]
  have hkp : w.kept.length = n := by simpa [World.received, h.back] using h.received
  have run₁ := run.next _ (h.enqueue run.inv payload)
    ⟨trivial, show w.session.nextArrayId < maxWord from hnx ▸ hn⟩
  have hlast : World.last json (w.waiting n payload none) = n := by
    rw [run₁.inv.last]
    simpa [World.received, waiting] using hkp
  have hget : (w.waiting n payload none).step json (fun _ => 1) (.get false payload) =
      some (w.waiting n payload (some ⟨false, n, false, [], 0⟩)) := by
    show some _ = some _
    simp only [hlast]
    simp [waiting, ReplayState.acknowledge, ReplayState.release]
  have hans : (w.waiting n payload (some ⟨false, n, false, [], 0⟩)).step json (fun _ => 1)
      (.answer false) = some (w.waiting n payload
        (some ⟨false, n, true, frame (json.print [(n + 1, payload)]), 0⟩)) := by
    simp [World.step, waiting, ReplayState.arraysAfter, encodeArraysFrame]
  have run₃ := (run₁.next _ hget ⟨trivial, trivial⟩).next _ hans ⟨trivial, trivial⟩
  generalize hfrm : frame (json.print [(n + 1, payload)]) = sent at run₃
  have harv : (w.waiting n payload (some ⟨false, n, true, sent, 0⟩)).step json (fun _ => 1)
      (.arrive sent.length) =
        some (w.waiting n payload (some ⟨false, n, true, sent, sent.length⟩)) := by
    simp [World.step, waiting]
  have run₅ := (run₃.next _ harv ⟨trivial, trivial⟩).next .lose rfl ⟨trivial, trivial⟩
  -- The whole frame arrived, so the client has the array.
  have har : Backchannel.arrays json ⟨false, n, true, sent, sent.length⟩ = [(n + 1, payload)] := by
    have hsn : sent = (([[(n + 1, payload)]]).map json.print).flatMap frame := by
      simp [← hfrm]
    rw [Backchannel.arrays_eq json hsn]
    rw [hsn, whole_flatMap]
    rfl
  have hrcv : (World.received json { w.waiting n payload none with
      kept := World.received json (w.waiting n payload (some ⟨false, n, true, sent, sent.length⟩)) }
      ).length = n + 1 := by
    simp [World.received, waiting, har, hkp]
  refine ⟨_, run₅.next (.post (n + 1)) rfl ⟨?_, trivial⟩, ?_, rfl, hrcv, ?_⟩
  · show n + 1 ≤ World.last json _
    rw [run₅.inv.last]
    exact hrcv.ge
  · show (w.log ++ [payload]).length = n + 1
    rw [length_append, h.log]
    rfl
  · show max n (n + 1) = n + 1
    omega

/-- A client can catch up with any number of arrays that leaves an id. -/
theorem caughtUp (json : JsonText J) (payload : J) : ∀ {n : Nat}, n < maxWord →
    ∃ w, Run json (fun _ => 1) (fun w signal => w.Honest json signal ∧ w.IdsLeft signal) w ∧
      CaughtUp json n w
  | 0, _ => ⟨new, .new, rfl, rfl, rfl, rfl⟩
  | n + 1, hn => by
    obtain ⟨w, run, h⟩ := caughtUp json payload (Nat.lt_of_succ_lt hn)
    exact h.succ payload hn run

end

/-- Arrays without payloads, a stroke for each unit of their ids. -/
def printStrokes (arrays : List (Nat × Unit)) : List Char :=
  arrays.flatMap fun a => replicate a.1 '1' ++ [',']

def readStrokes : Nat → List Char → Option (List (Nat × Unit))
  | 0, [] => some []
  | n, '1' :: cs => readStrokes (n + 1) cs
  | n, ',' :: cs => (readStrokes 0 cs).map ((n, ()) :: ·)
  | _, _ => none

theorem readStrokes_append (k n : Nat) (rest : List Char) :
    readStrokes k (replicate n '1' ++ ',' :: rest) =
      (readStrokes 0 rest).map ((k + n, ()) :: ·) := by
  induction n generalizing k with
  | zero => cases k <;> rfl
  | succ n ih =>
    rw [replicate_succ, cons_append, readStrokes, ih, Nat.add_right_comm, Nat.add_assoc]

def strokeText : JsonText Unit where
  print := printStrokes
  read := readStrokes 0
  read_print arrays := by
    induction arrays with
    | nil => rfl
    | cons a arrays ih =>
      rw [printStrokes, flatMap_cons, append_assoc]
      show readStrokes 0 (replicate a.1 '1' ++ ',' :: printStrokes arrays) = _
      rw [readStrokes_append, ih, Option.map_some, Nat.zero_add]

/-- One array, read on a long poll. -/
theorem replayed_in_order_one : ∃ w : World Unit,
    Run strokeText (fun _ => 1) (fun w signal => w.Honest strokeText signal ∧ w.IdsLeft signal) w ∧
      (w.received strokeText).map (·.1) = [1] := by
  obtain ⟨w, run, h⟩ := caughtUp strokeText () (n := 1) (by decide)
  refine ⟨w, run, ?_⟩
  rw [(replayed_in_order run).1, h.received]
  rfl

/-- **The last id, again.** After as many arrays as there are ids the counter stays at the last one:
the next two arrays have the same id, and it is not below the next id. -/
theorem last_id_again : ∃ w : World Unit,
    Run strokeText (fun _ => 1) (fun w signal => w.Honest strokeText signal) w ∧
      w.session.nextArrayId = maxWord ∧ w.session.arrays.map (·.id) = [maxWord, maxWord] := by
  obtain ⟨w, run, h⟩ := caughtUp strokeText () (n := maxWord - 1) (by decide)
  have henq := h.enqueue run.inv ()
  have hon : Run strokeText (fun _ => 1) (fun w signal => w.Honest strokeText signal) w :=
    run.mono fun _ _ => And.left
  refine ⟨_, (hon.next _ henq trivial).next (.enqueue ()) rfl trivial, ?_, ?_⟩
  · rfl
  · rfl

end World

end Firenook.Webchannel
