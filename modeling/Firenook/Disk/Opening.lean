import Firenook.Disk.World

/-!
# Opening — recovery, step by step

An open makes the directory's files ready, reads the journal, replays it in durable transactions,
empties it, rebuilds a stale field index and counts the documents. At every crash point the media
still recover what they did before; an open that returns serves exactly a history the media backed
(**`openStore_meets`**). With this the invariant holds in every world of a run (**`Run.inv`**).
-/

namespace Firenook.Disk

open List Fallible Crash

variable {fieldIndexes : Bool} {t t' : Tables} {usage : LogicalMemoryUsage} {options : DiskOptions}

section

variable {sha : Sha256} {crc : List UInt8 → UInt32} {journaled : Bool}
  {h acked inFlight : List WalRecord} {media : Media}

/-! ### Replay -/

/-- The media while the journal is replayed: the tables are durable and hold the first `k`
records. -/
structure Replaying (sha : Sha256) (crc : List UInt8 → UInt32) (h : List WalRecord) (k : Nat)
    (fieldIndexes : Bool) (t : Tables) (media : Media) : Prop where
  tables : media.tables = t
  durable : media.durable = t
  reached : k ≤ h.length
  stores : Stores sha t (h.take k)
  rest : Journaled crc media.journal [] k h
  indexed : fieldIndexes = true → fieldIndexValid t = true

section

variable {k : Nat} (hr : Replaying sha crc h k fieldIndexes t media)

include hr

theorem Replaying.backs : Backs sha crc journaled [] h media :=
  ⟨k, hr.reached, hr.durable ▸ hr.stores, fun _ => hr.rest⟩

theorem Replaying.revision : (loadPersistedState t).revision = k := by
  rw [hr.stores.state]
  exact length_take_of_le hr.reached

end

theorem Replaying.record {k : Nat} {r : WalRecord} {usage usage' : Option LogicalMemoryUsage}
    (hh : Chronicle h) (hr : Replaying sha crc h k fieldIndexes t media) (hk : h[k]? = some r)
    (ht : replayRecord sha fieldIndexes t usage r = .ok (t', usage')) :
    Replaying sha crc h (k + 1) fieldIndexes t' { media with tables := t', durable := t' } := by
  obtain ⟨-, -, ht⟩ := bind_eq_ok.mp ht
  obtain ⟨usage, -, ht⟩ := bind_eq_ok.mp ht
  obtain ⟨t'', hper, ht⟩ := bind_eq_ok.mp ht
  obtain ⟨rfl, rfl⟩ := Prod.mk.inj (pure_eq_ok.mp ht)
  have hlen := length_take_of_le hr.reached
  have hrev : r.revision = (h.take k).length + 1 := by rw [hlen, hh.numbered k r hk]
  have hsto := hr.stores.persistRecord hrev hr.indexed hper
  obtain ⟨hlt, hget⟩ := List.getElem?_eq_some_iff.mp hk
  refine ⟨rfl, rfl, hlt, ?_, hr.rest.settle hh (Nat.le_succ k), ?_⟩
  · rwa [take_add_one, hk]
  · intro hfi
    rw [hfi] at hper
    exact Stores.fieldIndexValid_persistRecord hper

/-- **The replay loop**, on records of which the first are already in the tables. -/
theorem replayLoop_meets (journaled : Bool) (hh : Chronicle h) {records old : List WalRecord} {k : Nat}
    {t : Tables} {usage : Option LogicalMemoryUsage} {media : Media}
    (hrc : records = old ++ h.drop k) (hold : ∀ r ∈ old, r.revision ≤ k)
    (hr : Replaying sha crc h k fieldIndexes t media) :
    Script.Meets disk (Backs sha crc journaled [] h) media
      (replayLoop sha fieldIndexes t usage records)
      fun t' media' => Replaying sha crc h h.length fieldIndexes t' media' := by
  induction records generalizing old k t usage media with
  | nil =>
    have hdr := (append_eq_nil_iff.mp hrc.symm).2
    have hk : k = h.length := Nat.le_antisymm hr.reached (drop_eq_nil_iff.mp hdr)
    exact Script.Meets.pure hr.backs (hk ▸ hr)
  | cons r records ih =>
    rw [replayLoop, hr.revision]
    cases old with
    | cons first old =>
      -- an older record: the tables have it
      obtain ⟨rfl, hrs⟩ := cons.inj hrc
      rw [if_pos (hold r mem_cons_self)]
      exact ih hrs (fun q hq => hold q (mem_cons_of_mem _ hq)) hr
    | nil =>
      have hk : h[k]? = some r := by
        have hhd := congrArg head? hrc
        rw [nil_append, head?_drop] at hhd
        exact hhd.symm
      have htl : records = [] ++ h.drop (k + 1) := by
        have htl := congrArg tail hrc
        rw [nil_append, tail_drop] at htl
        exact htl
      rw [if_neg (by rw [hh.numbered k r hk]; omega)]
      refine Script.Meets.bind (fun p m => m = media ∧
        replayRecord sha fieldIndexes t usage r = .ok p)
        (Script.Meets.lift hr.backs fun p hp => ⟨rfl, hp⟩) ?_
      rintro ⟨t', usage'⟩ _ ⟨rfl, hp⟩
      have hnx := hr.record hh hk hp
      refine Script.Meets.bind (fun _ m => Replaying sha crc h (k + 1) fieldIndexes
        t' m) (Script.Meets.emit (Device.Safe.cons hr.backs nofun (Device.Safe.nil hnx.backs))
        hnx) ?_
      intro _ m hm
      exact ih htl (by simp) hm

/-! ### The parts of an open -/

/-- The tables are durable and hold the history, and the journal holds nothing more. -/
structure Opened (sha : Sha256) (crc : List UInt8 → UInt32) (journaled : Bool)
    (h : List WalRecord) (t : Tables) (media : Media) : Prop where
  tables : media.tables = t
  durable : media.durable = t
  stores : Stores sha t h
  journal : journaled = true → Journaled crc media.journal [] h.length h

theorem Opened.backs (ho : Opened sha crc journaled h t media) :
    Backs sha crc journaled [] h media :=
  ⟨h.length, Nat.le_refl _, by rw [take_length, ho.durable]; exact ho.stores, ho.journal⟩

/-- A durable transaction that keeps the history. -/
theorem Opened.commit (ho : Opened sha crc journaled h t media) (hs : Stores sha t' h) :
    Opened sha crc journaled h t' (disk.apply (.commit t' true) media) :=
  ⟨rfl, rfl, hs, ho.journal⟩

theorem Opened.meets_emit {post : Unit → Media → Prop}
    (ho : Opened sha crc journaled h t media) (hs : Stores sha t' h)
    (hps : ∀ m, Opened sha crc journaled h t' m → post () m) :
    Script.Meets disk (Backs sha crc journaled [] h) media
      (Script.emit [.commit t' true] : Script Effect DiskError Unit) post :=
  Script.Meets.emit (Device.Safe.cons ho.backs nofun (Device.Safe.nil (ho.commit hs).backs))
    (hps _ (ho.commit hs))

/-- Reading the journal: what follows the whole frames is cut off. -/
theorem openJournal_meets {torn : List UInt8} {m : Nat} (hh : Chronicle h) (hm : m ≤ h.length)
    (hs : Stores sha media.durable (h.take m)) (hj : Journaled crc media.journal torn m h) :
    Script.Meets disk (fun media => ∃ torn, Backs sha crc journaled torn h media) media
      (openJournal crc media.journal)
      fun records media' => ∃ old journal, records = old ++ h.drop m ∧ (∀ r ∈ old, r.revision ≤ m) ∧
        media' = { media with journal } ∧ Journaled crc journal [] m h := by
  have hbef : ∃ torn, Backs sha crc journaled torn h media :=
    ⟨torn, m, hm, hs, fun _ => hj⟩
  obtain ⟨old, n, hrd, hold, -, htrm⟩ := hj.read hm hh
  refine Script.Meets.bind (fun p m' => p = (old ++ h.drop m, n) ∧ media = m')
    (Script.Meets.lift hbef fun p hp => ⟨Except.ok.inj (hp.symm.trans hrd), rfl⟩) ?_
  rintro _ _ ⟨rfl, rfl⟩
  have haft : ∃ torn, Backs sha crc journaled torn h
      { media with journal := media.journal.take n } := ⟨[], m, hm, hs, fun _ => htrm⟩
  refine Script.Meets.bind (fun _ m' => m' = { media with journal := media.journal.take n }) ?_ ?_
  · split
    · exact Script.Meets.emit (Device.Safe.cons hbef nofun (Device.Safe.nil haft)) rfl
    next hwhl =>
    refine Script.Meets.emit (Device.Safe.nil hbef) ?_
    change media = _
    rw [take_of_length_le (not_not.mp hwhl).le]
  · rintro _ _ rfl
    exact Script.Meets.pure haft ⟨old, _, rfl, hold, rfl, htrm⟩

/-- **The journal's part of an open.** -/
theorem recoverJournal_meets (hjr : options.journal = journaled)
    (hh : Chronicle (acked ++ inFlight))
    (hr : Recovers sha crc journaled acked inFlight media)
    (hdw : media.tables = media.durable) :
    Script.Meets disk (Recovers sha crc journaled acked inFlight) media
      (recoverJournal sha crc options media)
      fun t media' => ∃ h, Found journaled acked inFlight h ∧ Opened sha crc journaled h t media' ∧
        (options.fieldIndexes = true → fieldIndexValid media.tables = true →
          fieldIndexValid t = true) := by
  obtain ⟨h, torn, hfd, m, hm, hs, hj⟩ := hr
  unfold recoverJournal
  split
  · next hon =>
    have hon : journaled = true := hjr.symm.trans hon
    have hchr := hh.of_isPrefix hfd.sub
    have himp : ∀ m', (∃ torn, Backs sha crc journaled torn h m') →
        Recovers sha crc journaled acked inFlight m' := by
      rintro m' ⟨torn, hb⟩
      exact ⟨h, torn, hfd, hb⟩
    refine Script.Meets.bind _ ((openJournal_meets hchr hm hs (hj hon)).mono himp) ?_
    rintro _ _ ⟨old, journal, rfl, hold, rfl, hrs⟩
    have hbeg : Replaying sha crc h m
        (options.fieldIndexes && fieldIndexValid media.tables) media.tables
        { media with journal } :=
      ⟨rfl, hdw.symm, hm, hdw ▸ hs, hrs, fun hfi => (Bool.and_eq_true_iff.mp hfi).2⟩
    refine Script.Meets.bind _ ((replayLoop_meets journaled hchr rfl hold
      hbeg).mono fun m' hb => himp m' ⟨[], hb⟩) ?_
    intro t media' hr'
    have hsto : Stores sha t h := by
      have := hr'.stores
      rwa [take_length] at this
    have hopn : Opened sha crc journaled h t { media' with journal := [] } :=
      ⟨hr'.tables, hr'.durable, hsto, fun _ => Journaled.empty h⟩
    refine Script.Meets.bind (fun _ m' => m' = { media' with journal := [] })
      (Script.Meets.emit (Device.Safe.cons (himp _ ⟨[], hr'.backs⟩) nofun
        (Device.Safe.nil (himp _ ⟨[], hopn.backs⟩))) rfl) ?_
    rintro _ _ rfl
    refine Script.Meets.pure (himp _ ⟨[], hopn.backs⟩) ⟨h, hfd, hopn, ?_⟩
    intro hfi hvld
    exact hr'.indexed (Bool.and_eq_true_iff.mpr ⟨hfi, hvld⟩)
  · next hoff =>
    -- without a journal the durable tables are all there is
    have hoff : journaled = true → False := fun hon => hoff (hjr.trans hon)
    have hpre := take_prefix m h
    have hfd' : Found journaled acked inFlight (h.take m) :=
      ⟨hpre.trans hfd.sub, fun hon => (hoff hon).elim⟩
    refine Script.Meets.pure ⟨h, torn, hfd, m, hm, hs, hj⟩ ⟨h.take m, hfd', ?_, fun _ => id⟩
    exact ⟨rfl, hdw.symm, hdw ▸ hs, fun hon => (hoff hon).elim⟩

/-- A store without a history holds no documents. -/
theorem Stores.toList_of_nil (hs : Stores sha t []) : t.documents.toList = [] := by
  refine eq_nil_iff_forall_not_mem.mpr fun x hx => ?_
  obtain ⟨k, d, hd, -⟩ := hs.represents.unread.stored x hx
  simp [documentsOf, mutationsOf, mutate] at hd

/-- The field index's part of an open. -/
theorem recoverIndex_meets {indexValid : Bool} (ho : Opened sha crc journaled h t media)
    (hvld : options.fieldIndexes = true → indexValid = true → fieldIndexValid t = true) :
    Script.Meets disk (Backs sha crc journaled [] h) media (recoverIndex sha options indexValid t)
      fun p media' => Opened sha crc journaled h p.1 media' ∧
        (options.fieldIndexes = true → fieldIndexValid p.1 = true) ∧
        (h = [] → ∀ counted, p.2 = some counted → counted.entries = 0) := by
  unfold recoverIndex
  split
  · refine Script.Meets.bind (fun p m' => m' = media ∧ rebuildFieldIndex sha t = .ok p)
      (Script.Meets.lift ho.backs fun p hp => ⟨rfl, hp⟩) ?_
    rintro ⟨t', counted⟩ _ ⟨rfl, hreb⟩
    obtain ⟨hsto, hixd⟩ := ho.stores.rebuild hreb
    refine Script.Meets.bind (fun _ m => Opened sha crc journaled h t' m)
      (ho.meets_emit hsto fun m hm => hm) ?_
    intro _ m hm
    refine Script.Meets.pure hm.backs ⟨hm, fun _ => hixd, ?_⟩
    rintro rfl _ ⟨⟩
    rw [rebuildFieldIndex, ho.stores.toList_of_nil] at hreb
    obtain ⟨-, rfl⟩ := Prod.mk.inj (pure_eq_ok.mp hreb)
    rfl
  · next hkp =>
    refine Script.Meets.pure ho.backs ⟨ho, fun hfi => hvld hfi ?_, fun _ => nofun⟩
    simpa [hfi] using hkp

/-- An open loads the state the tables hold. -/
theorem loadDatabase_eq_ok (hs : Stores sha t h) {counted : Option LogicalMemoryUsage}
    {state : PersistedState} {recounted : Bool}
    (hld : loadDatabase t counted = .ok (state, usage, recounted)) :
    state = ⟨h.length, lastTime h⟩ := by
  rw [← hs.state, loadPersistedState]
  obtain ⟨⟨usage', recounted'⟩, -, hld⟩ := bind_eq_ok.mp hld
  cases hste : t.state with
  | some s =>
    simp only [hste, pure_eq_ok, Prod.mk.injEq] at hld
    exact hld.1.symm
  | none =>
    simp only [hste] at hld
    split at hld
    · simp only [pure_eq_ok, Prod.mk.injEq] at hld
      exact hld.1.symm
    · cases hld

/-- **An open**: at every crash point the media recover what they did, and a process it returns
stands at exactly a history they backed. -/
theorem openStore_meets (hjr : options.journal = journaled) (hh : Chronicle (acked ++ inFlight))
    (hr : Recovers sha crc journaled acked inFlight media)
    (hdw : media.tables = media.durable) :
    Script.Meets disk (Recovers sha crc journaled acked inFlight) media
      (openStore sha crc options media)
      fun p media' => ∃ h t, Found journaled acked inFlight h ∧
        Opened sha crc journaled h t media' ∧
        (options.fieldIndexes = true → fieldIndexValid t = true) ∧
        ∃ usage, p =
          { memory := .fromPersisted options.store h.length (lastTime h) ∅ usage
            journal := options.journal
            requiresRestart := false
            durability := options.durability
            unflushed := false
            fieldIndexes := options.fieldIndexes
            bulk := none } := by
  have hsm : disk.apply (.commit media.tables true) media = media := by
    obtain ⟨tables, durable, journal⟩ := media
    obtain rfl : tables = durable := hdw
    rfl
  refine Script.Meets.bind (fun _ m => m = media)
    (Script.Meets.emit (Device.Safe.cons hr nofun (Device.Safe.nil (hsm.symm ▸ hr))) hsm) ?_
  rintro _ _ rfl
  refine Script.Meets.bind _ (recoverJournal_meets hjr hh hr hdw) ?_
  rintro t m₁ ⟨h, hfd, ho, hvld⟩
  have himp : ∀ m', Backs sha crc journaled [] h m' →
      Recovers sha crc journaled acked inFlight m' := fun m' hb => ⟨h, [], hfd, hb⟩
  refine Script.Meets.bind _ ((recoverIndex_meets ho hvld).mono himp) ?_
  rintro ⟨t', counted⟩ m₂ ⟨ho', hixd, -⟩
  refine Script.Meets.bind (fun p m' => m' = m₂ ∧ loadDatabase t' counted = .ok p)
    (Script.Meets.lift (himp _ ho'.backs) fun p hp => ⟨rfl, hp⟩) ?_
  rintro ⟨state, usage, recounted⟩ _ ⟨rfl, hld⟩
  obtain rfl := loadDatabase_eq_ok ho'.stores hld
  refine Script.Meets.bind (fun _ m' => ∃ t'', Opened sha crc journaled h t'' m' ∧
    (options.fieldIndexes = true → fieldIndexValid t'' = true)) ?_ ?_
  · unfold saveDocumentUsage
    split
    · refine (ho'.meets_emit (ho'.stores.withUsage _) fun m hm => ?_).mono himp
      exact ⟨_, hm, hixd⟩
    · exact Script.Meets.emit (Device.Safe.nil (himp _ ho'.backs)) ⟨t', ho', hixd⟩
  · rintro _ m₃ ⟨t'', ho'', hixd'⟩
    exact Script.Meets.pure (himp _ ho''.backs) ⟨h, t'', hfd, ho'', hixd', usage, rfl⟩

/-! ### Runs -/

namespace World

variable {permitted : State → Elapsed → List Write → Prop} {w w' : World}

/-- A process that an open returns serves the history it found. -/
theorem Inv.reopen {media' : Media} {p : Process} (hi : Inv sha crc journaled w)
    (hjr : options.journal = journaled) (hfd : Found journaled w.acked w.inFlight h)
    (ho : Opened sha crc journaled h t media')
    (hixd : options.fieldIndexes = true → fieldIndexValid t = true)
    (hp : p =
      { memory := .fromPersisted options.store h.length (lastTime h) ∅ usage
        journal := options.journal, requiresRestart := false
        durability := options.durability, unflushed := false
        fieldIndexes := options.fieldIndexes, bulk := none }) :
    Inv sha crc journaled (w.reopen media' p) := by
  have htk : w.history.take p.memory.revision = h := by
    rw [hp]
    exact (prefix_iff_eq_take.mp hfd.sub).symm
  rw [World.reopen, htk]
  refine Inv.of_serving (p := p) (Serving.of_idle ?_ rfl ho.backs ?_ ?_
    (hi.chronicle.of_isPrefix hfd.sub) ?_ ?_) rfl ?_ ?_ ?_
  · rw [hp]
  · exact ho.tables ▸ ho.stores
  · rw [hp]
    exact ho.tables ▸ hixd
  · rw [hp]
    rfl
  · rw [hp]
    rfl
  · rw [hp]
    exact hjr
  · rw [hp]
    exact State.accounted_fromPersisted _ _ _ _ _
  · rw [hp]

theorem Inv.step (hi : Inv sha crc journaled w)
    (h : Step sha crc journaled permitted w w') : Inv sha crc journaled w' := by
  have hid : Inv sha crc journaled (w.interrupt w.media .other []) :=
    inv_interrupt ((append_nil _).symm ▸ hi.chronicle) ((append_nil _).symm ▸ hi.recovers)
  cases h with
  | @operate p call o hp h =>
    cases hrst : p.requiresRestart with
    | true => exact (hi.fenced_keeps hp hrst h).2.2.2.2.2
    | false =>
      exact ((hi.serving p hp hrst).keeps (hi.journal p hp) (hi.accounted p hp) hrst h).inv call
  | @cut p call o m hp h hcut =>
    cases hrst : p.requiresRestart with
    | true =>
      obtain ⟨heff, hrc, -⟩ := hi.fenced_keeps hp hrst h
      rw [heff] at hcut
      rw [hrc]
      cases hcut
      exact hid
    | false =>
      have hs := hi.serving p hp hrst
      have hk := hs.keeps (hi.journal p hp) (hi.accounted p hp) hrst h
      refine inv_interrupt ?_ ?_
      · rw [history, hs.landed, append_nil]
        exact hk.chronicle
      · rw [hs.landed]
        exact hk.safe m hcut
  | crash => exact hid
  | @opened options p hp hjr h =>
    have hop := openStore_meets hjr hi.chronicle hi.recovers (hi.down hp)
    obtain ⟨g, t, hfd, ho, hixd, usage, hprc⟩ := hop.post p h
    exact hi.reopen hjr hfd ho hixd hprc
  | @failed options m hp hjr hcut =>
    have hop := openStore_meets hjr hi.chronicle hi.recovers (hi.down hp)
    refine inv_interrupt ((append_nil _).symm ▸ hi.chronicle) ?_
    rw [append_nil]
    exact hop.safe m hcut

/-- **The invariant holds in every world of a run.** -/
theorem Run.inv (run : Run sha crc journaled permitted w) :
    Inv sha crc journaled w := by
  induction run with
  | start => exact inv_initial
  | step _ h ih => exact ih.step h

end World

end

end Firenook.Disk
