import Firenook.Storage.ViewRounds

/-!
# ViewCache — a view served as current is current

Along every run of the service in which a folder is asked for only while the index knows it, a view
that is served as current shows what a build from scratch shows, provided no object changed while
the request ran (**`Service.served_current`**). The argument is one of stamps: everything the cache
and the builds hold carries the stamp its request read, and if the folder still has that stamp then
what was copied under it is what lies there now.

A folder the index does not know has the stamp zero, as one unchanged since the index was built, so
a view can be served as current after its folder is gone (`Service.view_outlives_folder`).
-/

namespace Firenook.Storage

open List Option StorageData Nat Function

variable {w : Walk Text} {permitted : StorageData → ViewKey → Prop} {filter : StorageFilter}
  {l : Place} {stamp : Nat} {r : ViewRequest} {key : ViewKey}

section

variable (millis : Text → Option Int) (filters : Text → Option StorageFilter)

/-! ### What the cache holds -/

/-- What a build from scratch shows. -/
def Current (data : StorageData) (key : ViewKey) (shown : Shown) : Prop :=
  ∃ n, ∀ fuel ≥ n, scratch millis filters data key fuel = some shown

/-- The level's stamp a folder had with a stamp of its subtree. -/
structure Levels (data : StorageData) (levelAt : Text → Text → Nat → Nat) : Prop where
  current : ∀ b p s, data.stats b p = some s → levelAt b p s.subtreeRev = s.levelRev
  bounded : ∀ b p n, levelAt b p n ≤ data.revision

/-- Something copied from a folder since it had a stamp: `tree` holds if it has the stamp still, and
`level` if its level has the stamp it had then. -/
structure Fresh (levelAt : Text → Text → Nat → Nat) (data : StorageData) (l : Place) (stamp : Nat)
    (tree level : Prop) : Prop where
  bound : stamp ≤ data.revision
  tree : ∀ s, data.stats l.bucket l.path = some s → s.subtreeRev = stamp → tree
  level : l.flat = false → ∀ s, data.stats l.bucket l.path = some s →
    s.levelRev = levelAt l.bucket l.path stamp → level

variable (levelAt : Text → Text → Nat → Nat) (data : StorageData)

/-- Rows some rounds have copied. -/
def FreshRows (l : Place) (stamp : Nat) (w : Walk Row) : Prop :=
  Fresh levelAt data l stamp (∃ n, rounds (rowOf millis l) l data n = w)
    (∃ n, (rounds (rowOf millis l) l data n).blur = w.blur)

/-- Names some rounds have matched. -/
def FreshMatches (filter : StorageFilter) (l : Place) (stamp : Nat) (w : Walk Text) : Prop :=
  Fresh levelAt data l stamp (∃ n, rounds (matchOf filter l) l data n = w)
    (∃ n, rounds (matchOf filter l) l data n = w)

/-- A view stands for its stamp. -/
structure GoodView (key : ViewKey) (v : View) : Prop where
  bound : v.stamp ≤ data.revision
  current : ∀ s, data.stats key.place.bucket key.place.path = some s →
    (stampOf (some s) key.subtree).1 = v.stamp → Current millis filters data key v.shown

/-- A request has read the stamps of a folder, and they are the present ones if nothing changed. -/
structure GoodRequest (r : ViewRequest) : Prop where
  bound : r.subtreeStamp ≤ data.revision
  stamp : r.stamp = if r.key.subtree then r.subtreeStamp
    else levelAt r.key.place.bucket r.key.place.path r.subtreeStamp
  began : r.began ≤ data.revision
  still : r.began = data.revision → ∃ s, data.stats r.key.place.bucket r.key.place.path = some s ∧
    (stampOf (some s) r.key.subtree).1 = r.stamp

def GoodBase (l : Place) (base : Base) : Prop :=
  FreshRows millis levelAt data l base.stamp ⟨base.rows, .done⟩

def GoodJob (job : Job) : Prop :=
  GoodRequest levelAt data job.request ∧
    match job with
    | .begun _ => True
    | .walking r w => FreshRows millis levelAt data r.key.place r.subtreeStamp w
    | .matching r base w => base.stamp = r.subtreeStamp ∧
        GoodBase millis levelAt data r.key.place base ∧
        ∃ filter, filters r.key.filter = some filter ∧
          readsObjects r.key (some filter) = true ∧
          FreshMatches levelAt data filter r.key.place r.subtreeStamp w
    | .built r v => v.stamp = r.stamp ∧ GoodView millis filters data r.key v

end

/-- **What every state of a service keeps.** -/
structure Service.Good (millis : Text → Option Int) (filters : Text → Option StorageFilter)
    (levelAt : Text → Text → Nat → Nat) (s : Service) : Prop where
  run : StorageData.Run millis s.data
  built : ∃ index, s.data.folders = some index ∧ index.progress = .built
  levels : Levels s.data levelAt
  views : ∀ k v, s.views k = some v → GoodView millis filters s.data k v
  bases : ∀ l base, s.bases l = some base → GoodBase millis levelAt s.data l base
  waiting : ∀ r ∈ s.waiting, GoodRequest levelAt s.data r
  joined : ∀ r ∈ s.joined, GoodRequest levelAt s.data r
  jobs : ∀ j ∈ s.jobs, GoodJob millis filters levelAt s.data j

/-! ### Builds from scratch -/

/-- A flat view is stamped by the subtree. -/
theorem flat_of_subtree (h : key.subtree = false) : key.place.flat = false := by
  rw [ViewKey.subtree, Bool.or_assoc, Bool.or_eq_false_iff] at h
  exact h.1

section

variable {millis : Text → Option Int} {filters : Text → Option StorageFilter} {data : StorageData}
  {key : ViewKey}

/-- A view that needs no walk of its own for its filter. -/
theorem scratch_rows (hrd : readsObjects key (filters key.filter) = false) {n fuel : Nat}
    (hdn : (rounds (rowOf millis key.place) key.place data n).resume = .done) (hn : n ≤ fuel) :
    scratch millis filters data key fuel = some (arrange key (filters key.filter)
      (rounds (rowOf millis key.place) key.place data n).found none) := by
  have hrw : (walkRound (rowOf millis key.place) key.place data)^[fuel] {} =
      rounds (rowOf millis key.place) key.place data n := rounds_of_le hdn hn
  rw [scratch, hrw]
  simp only [hdn, ne_eq, not_true_eq_false, if_false]
  split
  · next f hf =>
    rw [hf] at hrd
    simp [hf, hrd]
  · next hf => rw [hf]

/-- A view whose filter reads objects. -/
theorem scratch_matches (hflt : filters key.filter = some filter)
    (hrd : readsObjects key (some filter) = true) {n m fuel : Nat}
    (hdn : (rounds (rowOf millis key.place) key.place data n).resume = .done) (hn : n ≤ fuel)
    (hdn' : (rounds (matchOf filter key.place) key.place data m).resume = .done) (hm : m ≤ fuel) :
    scratch millis filters data key fuel = some (arrange key (some filter)
      (rounds (rowOf millis key.place) key.place data n).found
      (some (rounds (matchOf filter key.place) key.place data m).found)) := by
  have hrw : (walkRound (rowOf millis key.place) key.place data)^[fuel] {} =
      rounds (rowOf millis key.place) key.place data n := rounds_of_le hdn hn
  have hmt : (walkRound (matchOf filter key.place) key.place data)^[fuel] {} =
      rounds (matchOf filter key.place) key.place data m := rounds_of_le hdn' hm
  rw [scratch, hrw]
  simp [hdn, hflt, hrd, hmt, hdn']

end

/-! ### One step of the data -/

/-- What a change of data with a built index leaves as it was. -/
structure Later (d d' : StorageData) : Prop where
  keyed : Keyed d.objects
  keyed' : Keyed d'.objects
  bucket : ∀ b p s, d.stats b p = some s → 0 ∉ b
  revision : d.revision < d'.revision
  bounded : ∀ b p s', d'.stats b p = some s' → s'.levelRev ≤ d'.revision
  tree : ∀ b p s', d'.stats b p = some s' → s'.subtreeRev ≤ d.revision →
    d.stats b p = some s' ∧ SameTree b p d d'
  level : ∀ b p s', d'.stats b p = some s' → s'.levelRev ≤ d.revision →
    ∃ s, d.stats b p = some s ∧ s.levelRev = s'.levelRev ∧ SameLevel b p d d'

theorem later_of_step {millis : Text → Option Int} {d d' : StorageData} {index : FolderIndex}
    (run : StorageData.Run millis d) (h : StorageData.Step millis d d') (hft : Fits d'.values)
    (hidx : d.folders = some index) (hblt : index.progress = .built) :
    d' = d ∨ Later d d' ∧ ∃ index', d'.folders = some index' ∧ index'.progress = .built := by
  have run' := run.step h hft
  have hi := run.inv
  have hbkt := fun b p s => hi.bucket_of_stats (b := b) (p := p) (s := s) hidx hblt
  rcases h.built_cases hi.keyed hidx hblt with rfl | rfl | ⟨b, n, atMs, hm⟩
  · exact .inl rfl
  · refine .inr ⟨⟨hi.keyed, run'.inv.keyed, hbkt, lt_succ_self _, ?_, ?_, ?_⟩, _, rfl, rfl⟩
    all_goals
      intro b p s' hs'
      cases hs'
  · refine .inr ⟨⟨hi.keyed, run'.inv.keyed, hbkt, hm.revision ▸ lt_succ_self _, ?_, ?_, ?_⟩,
      _, hm.after, hblt⟩
    · intro c p s' hs'
      obtain ⟨x, -, -, hent⟩ := stats_eq_some hm.after hs'
      exact (run'.stamped _ hm.after c x s' hent).level
    · intro c p s' hs' hle
      refine (hm.tree hi run'.inv hblt hs').resolve_left fun heq => ?_
      rw [heq, hm.revision] at hle
      exact not_succ_le_self _ hle
    · intro c p s' hs' hle
      refine (hm.level hi run'.inv hblt hs').resolve_left fun heq => ?_
      rw [heq, hm.revision] at hle
      exact not_succ_le_self _ hle

/-- The stamps of levels after a change, which the folders it touched have of it. -/
def levelAfter (levelAt : Text → Text → Nat → Nat) (d d' : StorageData) (b p : Text) (n : Nat) : Nat :=
  if n ≤ d.revision then levelAt b p n else ((d'.stats b p).map (·.levelRev)).getD 0

namespace Later

variable {millis : Text → Option Int} {filters : Text → Option StorageFilter}
  {levelAt : Text → Text → Nat → Nat} {d d' : StorageData}

section

variable (h : Later d d') (hl : Levels d levelAt)

include h hl

theorem levels : Levels d' (levelAfter levelAt d d') where
  current b p s hs := by
    unfold levelAfter
    split
    · next hle => exact hl.current b p s (h.tree b p s hs hle).1
    · rw [hs]
      rfl
  bounded b p n := by
    unfold levelAfter
    split
    · exact (hl.bounded b p n).trans (le_of_lt h.revision)
    · cases hs : d'.stats b p with
      | none => exact zero_le _
      | some s => exact h.bounded b p s hs

theorem fresh {tree level tree' level' : Prop} (hf : Fresh levelAt d l stamp tree level)
    (htr : SameTree l.bucket l.path d d' → tree → tree')
    (hlev : l.flat = false → 0 ∉ l.bucket → SameLevel l.bucket l.path d d' → level → level') :
    Fresh (levelAfter levelAt d d') d' l stamp tree' level' where
  bound := hf.bound.trans (le_of_lt h.revision)
  tree s' hs' hstamp := by
    obtain ⟨hs, hsm⟩ := h.tree _ _ s' hs' (hstamp ▸ hf.bound)
    exact htr hsm (hf.tree s' hs hstamp)
  level hfl s' hs' hstamp := by
    rw [levelAfter, if_pos hf.bound] at hstamp
    obtain ⟨s, hs, hrev, hsm⟩ := h.level _ _ s' hs' (hstamp ▸ hl.bounded _ _ _)
    exact hlev hfl (h.bucket _ _ s hs) hsm (hf.level hfl s hs (hrev.trans hstamp))

theorem freshRows {w : Walk Row} (hf : FreshRows millis levelAt d l stamp w) :
    FreshRows millis (levelAfter levelAt d d') d' l stamp w := by
  refine h.fresh hl hf ?_ ?_
  · rintro hsm ⟨n, hn⟩
    exact ⟨n, (rounds_tree hsm (fun r x hx => rowOf_tree hsm hx) n).trans hn⟩
  · rintro hfl hb hsm ⟨n, hn⟩
    exact ⟨n, (rounds_level hfl h.keyed h.keyed' hb hsm n).trans hn⟩

theorem freshMatches (hf : FreshMatches levelAt d filter l stamp w) :
    FreshMatches (levelAfter levelAt d d') d' filter l stamp w := by
  refine h.fresh hl hf ?_ ?_
  · rintro hsm ⟨n, hn⟩
    exact ⟨n, (rounds_tree hsm (fun _ _ _ => rfl) n).trans hn⟩
  · rintro hfl hb hsm ⟨n, hn⟩
    exact ⟨n, (matches_level hfl h.keyed h.keyed' hb hsm n).trans hn⟩

end

theorem scratch_tree (hsm : SameTree key.place.bucket key.place.path d d')
    (fuel : Nat) : scratch millis filters d' key fuel = scratch millis filters d key fuel := by
  have hrw : (walkRound (rowOf millis key.place) key.place d')^[fuel] {} =
      (walkRound (rowOf millis key.place) key.place d)^[fuel] {} :=
    rounds_tree hsm (fun r x hx => rowOf_tree hsm hx) fuel
  have hmt (filter) : (walkRound (matchOf filter key.place) key.place d')^[fuel] {} =
        (walkRound (matchOf filter key.place) key.place d)^[fuel] {} :=
    rounds_tree hsm (fun _ _ _ => rfl) fuel
  simp [scratch, hrw, hmt]

/-- A view that is not stamped by the subtree does not show the figures of subfolders. -/
theorem scratch_level (h : Later d d') (hkey : key.subtree = false)
    (hb : 0 ∉ key.place.bucket) (hsm : SameLevel key.place.bucket key.place.path d d')
    (fuel : Nat) : scratch millis filters d' key fuel = scratch millis filters d key fuel := by
  have hfl := flat_of_subtree hkey
  have hrw : ((walkRound (rowOf millis key.place) key.place d')^[fuel] {}).blur =
      ((walkRound (rowOf millis key.place) key.place d)^[fuel] {}).blur :=
    rounds_level hfl h.keyed h.keyed' hb hsm fuel
  have hmt (filter) : (walkRound (matchOf filter key.place) key.place d')^[fuel] {} =
        (walkRound (matchOf filter key.place) key.place d)^[fuel] {} :=
    matches_level hfl h.keyed h.keyed' hb hsm fuel
  obtain ⟨hfd, hrsm⟩ := Walk.mk.inj hrw
  have harr (filter) (matched : Option (List Text)) :
      arrange key filter ((walkRound (rowOf millis key.place) key.place d')^[fuel] {}).found matched =
        arrange key filter ((walkRound (rowOf millis key.place) key.place d)^[fuel] {}).found
          matched := by
    rw [← arrange_blur hkey, hfd, arrange_blur hkey]
  simp [scratch, hrsm, hmt, harr]

theorem goodView (h : Later d d') {v : View}
    (hv : GoodView millis filters d key v) : GoodView millis filters d' key v where
  bound := hv.bound.trans (le_of_lt h.revision)
  current s' hs' hstamp := by
    cases hkey : key.subtree with
    | true =>
      rw [hkey] at hstamp
      obtain ⟨hs, hsm⟩ := h.tree _ _ s' hs' (le_trans (le_of_eq hstamp) hv.bound)
      obtain ⟨n, hn⟩ := hv.current s' hs (by rw [hkey]; exact hstamp)
      exact ⟨n, fun fuel hfl => (scratch_tree hsm fuel).trans (hn fuel hfl)⟩
    | false =>
      rw [hkey] at hstamp
      obtain ⟨s, hs, hrev, hsm⟩ := h.level _ _ s' hs' (le_trans (le_of_eq hstamp) hv.bound)
      obtain ⟨n, hn⟩ := hv.current s hs (by rw [hkey]; exact hrev.trans hstamp)
      exact ⟨n, fun fuel hfl =>
        (h.scratch_level hkey (h.bucket _ _ s hs) hsm fuel).trans (hn fuel hfl)⟩

theorem goodRequest (h : Later d d') (hr : GoodRequest levelAt d r) :
    GoodRequest (levelAfter levelAt d d') d' r where
  bound := hr.bound.trans (le_of_lt h.revision)
  stamp := by
    rw [levelAfter, if_pos hr.bound]
    exact hr.stamp
  began := hr.began.trans (le_of_lt h.revision)
  still heq := absurd (heq ▸ hr.began) (not_le.mpr h.revision)

theorem goodJob (h : Later d d') (hl : Levels d levelAt) {job : Job}
    (hj : GoodJob millis filters levelAt d job) :
    GoodJob millis filters (levelAfter levelAt d d') d' job := by
  refine ⟨h.goodRequest hj.1, ?_⟩
  have hj := hj.2
  cases job with
  | begun r => trivial
  | walking r w => exact h.freshRows hl hj
  | matching r base w =>
    obtain ⟨hstamp, hbase, filter, hflt, hrd, hw⟩ := hj
    exact ⟨hstamp, h.freshRows hl hbase, filter, hflt, hrd, h.freshMatches hl hw⟩
  | built r v => exact ⟨hj.1, h.goodView hj.2⟩

end Later

/-! ### Builds -/

section

variable {millis : Text → Option Int} {filters : Text → Option StorageFilter}
  {levelAt : Text → Text → Nat → Nat} {data : StorageData}

section

variable (hr : GoodRequest levelAt data r) {s : FolderStats}
  (hs : data.stats r.key.place.bucket r.key.place.path = some s)
  (hstamp : (stampOf (some s) r.key.subtree).1 = r.stamp)

include hr hs hstamp

/-- What a stamped request knows when the folder has its stamp again. -/
theorem GoodRequest.fresh {tree level : Prop}
    (hf : Fresh levelAt data r.key.place r.subtreeStamp tree level) :
    (r.key.subtree = true → tree) ∧ (r.key.subtree = false → level) := by
  refine ⟨fun hkey => ?_, fun hkey => ?_⟩
  · have heq := hr.stamp
    rw [hkey] at hstamp heq
    exact hf.tree s hs (hstamp.trans heq)
  · have heq := hr.stamp
    rw [hkey] at hstamp heq
    exact hf.level (flat_of_subtree hkey) s hs (hstamp.trans heq)

/-- The rows of a base at hand, when the folder has the request's stamp. -/
theorem GoodRequest.rows {base : Base} (hb : base.stamp = r.subtreeStamp)
    (hbase : GoodBase millis levelAt data r.key.place base) :
    ∃ n, (rounds (rowOf millis r.key.place) r.key.place data n).resume = .done
      ∧ ∀ filter matched, arrange r.key filter
          (rounds (rowOf millis r.key.place) r.key.place data n).found matched
        = arrange r.key filter base.rows matched := by
  have hrw : FreshRows millis levelAt data r.key.place r.subtreeStamp ⟨base.rows, .done⟩ := by
    rw [← hb]
    exact hbase
  obtain ⟨htr, hlev⟩ := hr.fresh hs hstamp hrw
  cases hkey : r.key.subtree with
  | true =>
    obtain ⟨n, hn⟩ := htr hkey
    exact ⟨n, by rw [hn], fun filter matched => by rw [hn]⟩
  | false =>
    obtain ⟨n, hn⟩ := hlev hkey
    obtain ⟨hfd, hrsm⟩ := Walk.mk.inj hn
    refine ⟨n, hrsm, fun filter matched => ?_⟩
    rw [← arrange_blur hkey, hfd, arrange_blur hkey]

end

theorem GoodRequest.stamp_le (hl : Levels data levelAt) (hr : GoodRequest levelAt data r) :
    r.stamp ≤ data.revision := by
  rw [hr.stamp]
  split
  · exact hr.bound
  · exact hl.bounded _ _ _

section

variable (hl : Levels data levelAt) (hr : GoodRequest levelAt data r) {base : Base}
  (hb : base.stamp = r.subtreeStamp) (hbase : GoodBase millis levelAt data r.key.place base)

include hl hr hb hbase

theorem goodJob_withBase : GoodJob millis filters levelAt data (withBase filters r base) := by
  unfold withBase
  split
  · next hrd =>
    cases hflt : filters r.key.filter with
    | none =>
      rw [hflt] at hrd
      cases hrd
    | some filter =>
      rw [hflt] at hrd
      exact ⟨hr, hb, hbase, filter, hflt, hrd, hr.bound, fun _ _ _ => ⟨0, rfl⟩,
        fun _ _ _ _ => ⟨0, rfl⟩⟩
  · next hrd =>
    refine ⟨hr, rfl, hr.stamp_le hl, fun s hs hstamp => ?_⟩
    obtain ⟨n, hdn, harr⟩ := hr.rows hs hstamp hb hbase
    refine ⟨n, fun fuel hfl => ?_⟩
    rw [scratch_rows (Bool.eq_false_iff.mpr hrd) hdn hfl, harr]
    rfl

/-- A build whose filter has been matched. -/
theorem goodView_matched (hflt : filters r.key.filter = some filter)
    (hrd : readsObjects r.key (some filter) = true)
    (hw : FreshMatches levelAt data filter r.key.place r.subtreeStamp w)
    (hdn : w.resume = .done) :
    GoodView millis filters data r.key (viewOf filters r base (some w.found)) := by
  refine ⟨hr.stamp_le hl, fun s hs hstamp => ?_⟩
  obtain ⟨n, hrw, harr⟩ := hr.rows hs hstamp hb hbase
  have hmt : ∃ m, rounds (matchOf filter r.key.place) r.key.place data m = w := by
    obtain ⟨htr, hlev⟩ := hr.fresh hs hstamp hw
    cases hkey : r.key.subtree with
    | true => exact htr hkey
    | false => exact hlev hkey
  obtain ⟨m, hm⟩ := hmt
  refine ⟨max n m, fun fuel hfl => ?_⟩
  rw [scratch_matches hflt hrd hrw ((le_max_left n m).trans hfl) (hm ▸ hdn)
    ((le_max_right n m).trans hfl), harr, hm, viewOf, hflt]

end

theorem FreshRows.round {w : Walk Row} (h : FreshRows millis levelAt data l stamp w) :
    FreshRows millis levelAt data l stamp (walkRound (rowOf millis l) l data w) where
  bound := h.bound
  tree s hs hstamp := by
    obtain ⟨n, hn⟩ := h.tree s hs hstamp
    exact ⟨n + 1, by rw [rounds_succ, hn]⟩
  level hfl s hs hstamp := by
    obtain ⟨n, hn⟩ := h.level hfl s hs hstamp
    exact ⟨n + 1, by rw [rounds_succ, walkRound_blur hn]⟩

theorem FreshMatches.round (h : FreshMatches levelAt data filter l stamp w) :
    FreshMatches levelAt data filter l stamp (walkRound (matchOf filter l) l data w) where
  bound := h.bound
  tree s hs hstamp := by
    obtain ⟨n, hn⟩ := h.tree s hs hstamp
    exact ⟨n + 1, by rw [rounds_succ, hn]⟩
  level hfl s hs hstamp := by
    obtain ⟨n, hn⟩ := h.level hfl s hs hstamp
    exact ⟨n + 1, by rw [rounds_succ, hn]⟩

end

/-- A build that moves on stays good, and so is a base it has finished. -/
theorem Service.Good.advance {millis : Text → Option Int} {filters : Text → Option StorageFilter}
    {levelAt : Text → Text → Nat → Nat} {s : Service} (h : s.Good millis filters levelAt)
    {job : Job} (hj : GoodJob millis filters levelAt s.data job) :
    GoodJob millis filters levelAt s.data (job.advance millis filters s).1
      ∧ ∀ base ∈ (job.advance millis filters s).2,
        GoodBase millis levelAt s.data job.request.key.place base := by
  obtain ⟨hr, hj⟩ := hj
  cases job with
  | begun r =>
    rw [Job.advance]
    split
    · next base hbase =>
      obtain ⟨hbase, hstamp⟩ := filter_eq_some_iff.mp hbase
      exact ⟨goodJob_withBase h.levels hr (of_decide_eq_true hstamp) (h.bases _ base hbase), nofun⟩
    · exact ⟨⟨hr, hr.bound, fun _ _ _ => ⟨0, rfl⟩, fun _ _ _ _ => ⟨0, rfl⟩⟩, nofun⟩
  | walking r w =>
    rw [Job.advance]
    split
    · next hdn =>
      have hbase : GoodBase millis levelAt s.data r.key.place ⟨w.found, r.subtreeStamp⟩ := by
        rw [GoodBase, ← hdn]
        exact hj
      refine ⟨goodJob_withBase h.levels hr rfl hbase, fun base hmem => ?_⟩
      cases hmem
      exact hbase
    · exact ⟨⟨hr, hj.round⟩, nofun⟩
  | matching r base w =>
    obtain ⟨hstamp, hbase, filter, hflt, hrd, hw⟩ := hj
    simp only [Job.advance, hflt]
    split
    · next hdn =>
      exact ⟨⟨hr, rfl, goodView_matched h.levels hr hstamp hbase hflt hrd hw hdn⟩, nofun⟩
    · exact ⟨⟨hr, hstamp, hbase, filter, hflt, hrd, hw.round⟩, nofun⟩
  | built r v => exact ⟨⟨hr, hj⟩, nofun⟩

/-! ### Runs -/

/-- A folder is asked for only while the index knows it. -/
def Known (data : StorageData) (key : ViewKey) : Prop :=
  data.stats key.place.bucket key.place.path ≠ none

namespace Service

variable {millis : Text → Option Int} {filters : Text → Option StorageFilter} {s s' : Service}

section

variable {levelAt : Text → Text → Nat → Nat} (h : s.Good millis filters levelAt)

include h

theorem Good.change {data : StorageData} (hst : StorageData.Step millis s.data data)
    (hft : Fits data.values) : ∃ levelAt', Good millis filters levelAt' { s with data } := by
  obtain ⟨index, hidx, hblt⟩ := h.built
  rcases later_of_step h.run hst hft hidx hblt with rfl | ⟨hlat, hblt'⟩
  · exact ⟨levelAt, h⟩
  exact ⟨levelAfter levelAt s.data data, h.run.step hst hft, hblt', hlat.levels h.levels,
    fun k v hv => hlat.goodView (h.views k v hv),
    fun l base hb => hlat.freshRows h.levels (h.bases l base hb),
    fun r hr => hlat.goodRequest (h.waiting r hr),
    fun r hr => hlat.goodRequest (h.joined r hr),
    fun j hj => hlat.goodJob h.levels (h.jobs j hj)⟩

/-- A request for a folder the index knows. -/
theorem Good.request (hkn : Known s.data key) :
    GoodRequest levelAt s.data (s.data.request key) := by
  obtain ⟨figures, hfig⟩ := ne_none_iff_exists.mp hkn
  obtain ⟨index, hidx, -⟩ := h.built
  obtain ⟨x, -, -, hent⟩ := stats_eq_some hidx hfig.symm
  have hst := h.run.stamped index hidx _ x figures hent
  have hcur := h.levels.current _ _ figures hfig.symm
  simp only [StorageData.request, ← hfig]
  refine ⟨hst.tree, ?_, le_refl _, fun _ => ⟨figures, hfig.symm, rfl⟩⟩
  cases hkey : key.subtree with
  | true => simp
  | false => simp [stampOf, hcur]

theorem Good.step {served : Option Served} (hst : Step millis filters Known s served s') :
    ∃ levelAt', s'.Good millis filters levelAt' := by
  cases hst with
  | change hdt hft => exact h.change hdt hft
  | evict hvws hbas =>
    refine ⟨levelAt, { h with views := fun k v hv => ?_, bases := fun l base hb => ?_ }⟩
    · rcases hvws k with hnn | hsm
      · exact absurd (hnn.symm.trans hv) nofun
      · exact h.views k v (hsm.symm.trans hv)
    · rcases hbas l with hnn | hsm
      · exact absurd (hnn.symm.trans hb) nofun
      · exact h.bases l base (hsm.symm.trans hb)
  | begin ok =>
    exact ⟨levelAt, { h with waiting := forall_mem_cons.mpr ⟨h.request ok, h.waiting⟩ }⟩
  | hit | stale =>
    exact ⟨levelAt, { h with waiting := fun r hr => h.waiting r (mem_of_mem_erase hr) }⟩
  | build hr miss =>
    exact ⟨levelAt, { h with
      waiting := fun r hr => h.waiting r (mem_of_mem_erase hr)
      joined := forall_mem_cons.mpr ⟨h.waiting _ hr, h.joined⟩
      jobs := forall_mem_cons.mpr ⟨⟨h.waiting _ hr, trivial⟩, h.jobs⟩ }⟩
  | join hr miss hjob hkey hstamp =>
    exact ⟨levelAt, { h with
      waiting := fun r hr => h.waiting r (mem_of_mem_erase hr)
      joined := forall_mem_cons.mpr ⟨h.waiting _ hr, h.joined⟩ }⟩
  | @job before after job hjb =>
    obtain ⟨hjob, hbase⟩ := h.advance (h.jobs job (by simp [hjb]))
    refine ⟨levelAt, { h with bases := fun l base hb => ?_, jobs := fun j hj => ?_ }⟩
    · cases hadv : (job.advance millis filters s).2 with
      | none =>
        simp only [Service.advance, hadv] at hb
        exact h.bases l base hb
      | some finished =>
        simp only [Service.advance, hadv] at hb
        by_cases hl : l = job.request.key.place
        · subst hl
          rw [update_self] at hb
          cases hb
          exact hbase base hadv
        · rw [update_of_ne hl] at hb
          exact h.bases l base hb
    · simp only [Service.advance, mem_append, mem_cons] at hj
      have hold : ∀ j, j ∈ before ∨ j ∈ after → GoodJob millis filters levelAt s.data j :=
        fun j hj => h.jobs j (by
          rw [hjb, mem_append, mem_cons]
          exact hj.imp_right .inr)
      rcases hj with hj | rfl | hj
      · exact hold j (.inl hj)
      · exact hjob
      · exact hold j (.inr hj)
  | @finish r q v hr hjob hkey hstamp =>
    refine ⟨levelAt, { h with
      views := fun k w hw => ?_
      joined := fun r hr => h.joined r (mem_of_mem_erase hr) }⟩
    have hv : GoodView millis filters s.data r.key v := hkey ▸ (h.jobs _ hjob).2.2
    simp only [keep] at hw
    split at hw
    · exact h.views k w hw
    by_cases hk : k = r.key
    · subst hk
      rw [update_self] at hw
      cases hw
      exact hv
    · rw [update_of_ne hk] at hw
      exact h.views k w hw

end

theorem good_of_run (run : Run millis filters Known s) :
    ∃ levelAt, s.Good millis filters levelAt := by
  induction run with
  | @start data run index hidx hblt =>
    refine ⟨fun b p _ => ((data.stats b p).map (·.levelRev)).getD 0, run, ⟨index, hidx, hblt⟩,
      ⟨fun b p s hs => by rw [hs]; rfl, fun b p n => ?_⟩, nofun, nofun, nofun, nofun, nofun⟩
    cases hs : data.stats b p with
    | none => exact zero_le _
    | some s =>
      obtain ⟨x, -, -, hent⟩ := stats_eq_some hidx hs
      exact (run.stamped index hidx b x s hent).level
  | step run h ih =>
    obtain ⟨levelAt, hgd⟩ := ih
    exact hgd.step h

/-- **A view served as current is current**, if folders are asked for only while the index knows
them and no object changed while the request ran. -/
theorem served_current (run : Run millis filters Known s) {r : ViewRequest} {v : View}
    (h : Step millis filters Known s (some ⟨r, v, false⟩) s') (hstill : r.began = s.data.revision) :
    Current millis filters s.data r.key v.shown := by
  obtain ⟨levelAt, hgd⟩ := good_of_run run
  cases h with
  | hit hr hv hstamp =>
    obtain ⟨figures, hfig, heq⟩ := (hgd.waiting r hr).still hstill
    exact (hgd.views _ v hv).current figures hfig (heq.trans hstamp.symm)
  | finish hr hjob hkey hstamp =>
    obtain ⟨figures, hfig, heq⟩ := (hgd.joined r hr).still hstill
    obtain ⟨-, hv, hvw⟩ := hgd.jobs _ hjob
    exact (hkey ▸ hvw).current figures hfig (heq.trans (hstamp.symm.trans hv.symm))

/-! ### A view that outlives its folder -/

/-- The first build moves on. -/
def drive (millis : Text → Option Int) (filters : Text → Option StorageFilter) (s : Service) :
    Service :=
  match s.jobs with
  | [] => s
  | job :: jobs => s.advance millis filters [] jobs job

theorem Run.drive (run : Run millis filters permitted s) :
    Run millis filters permitted (s.drive millis filters) := by
  unfold Service.drive
  split
  · exact run
  · next job jobs hjb => exact run.step (.job (show s.jobs = [] ++ job :: jobs from hjb))

/-- A build touches neither the data nor the views nor the requests. -/
theorem drive_frame (n : Nat) (s : Service) : ((drive millis filters)^[n] s).data = s.data
    ∧ ((drive millis filters)^[n] s).views = s.views
    ∧ ((drive millis filters)^[n] s).joined = s.joined := by
  induction n generalizing s with
  | zero => exact ⟨rfl, rfl, rfl⟩
  | succ n ih =>
    have hone : (s.drive millis filters).data = s.data ∧ (s.drive millis filters).views = s.views
        ∧ (s.drive millis filters).joined = s.joined := by
      unfold drive
      split <;> exact ⟨rfl, rfl, rfl⟩
    rw [iterate_succ_apply, (ih _).1, (ih _).2.1, (ih _).2.2]
    exact hone

def result (s : Service) : Option (ViewRequest × View) :=
  s.jobs.head?.bind fun job =>
    match job with
    | .built r v => some (r, v)
    | _ => none

theorem mem_of_result {v : View} (h : s.result = some (r, v)) : .built r v ∈ s.jobs := by
  obtain ⟨job, hjob, hres⟩ := bind_eq_some_iff.mp h
  split at hres
  · cases hres
    exact mem_of_head? hjob
  · cases hres

/-- A file that is there when the index is built. -/
def loaded : StorageData :=
  (StorageData.startWalk { objects := (∅ : Objects).insert sampleObject.key sampleObject }).walkChunk
    (fun _ => none) 1

/-- Its folder by size, which no listing by name answers. -/
def folderKey : ViewKey where
  place := ⟨ascii "b", ascii "a/", false⟩
  kind := .all
  order := ⟨.size, false⟩
  filter := []

/-- Its folder's view is asked for and built. -/
def asked : Service := ⟨loaded, fun _ => none, fun _ => none, [], [loaded.request folderKey],
  [.begun (loaded.request folderKey)]⟩

def viewed : Service := (drive (fun _ => none) fun _ => none)^[3] asked

theorem run_loaded : StorageData.Run (fun _ => none) loaded := by
  have hvl : values { objects := (∅ : Objects).insert sampleObject.key sampleObject }
      = [sampleObject] := by decide +kernel
  have hft := fits_sample
  rw [show sampleData.values = [sampleObject] by decide +kernel] at hft
  have hkd : Keyed ((∅ : Objects).insert sampleObject.key sampleObject) := by
    intro k o ho
    rw [Std.ExtTreeMap.getElem?_insert] at ho
    split at ho
    · next hk =>
      cases ho
      exact ⟨Std.LawfulEqCmp.eq_of_compare hk, by decide⟩
    · simp at ho
  refine .step (.step (.start _ hkd (hvl ▸ hft)) .startWalk ?_) (.walkChunk 1) ?_
  · exact hvl ▸ hft
  · exact hvl ▸ hft

theorem run_viewed (ok : permitted loaded folderKey) :
    Run (fun _ => none) (fun _ => none) permitted viewed := by
  have hblt : (loaded.folders.any fun index => decide (index.progress = .built)) = true := by
    decide +kernel
  obtain ⟨index, hidx, hprg⟩ := (any_eq_true _ _).mp hblt
  have hbeg : Run (fun _ => none) (fun _ => none) permitted
      ⟨loaded, fun _ => none, fun _ => none, [], [], []⟩ :=
    .start run_loaded hidx (of_decide_eq_true hprg)
  have hask := (hbeg.step (.begin ok)).step (.build mem_cons_self nofun)
  rw [erase_cons_head] at hask
  exact hask.drive.drive.drive

theorem viewed_frame : viewed.data = loaded ∧ viewed.views = (fun _ => none)
    ∧ viewed.joined = [loaded.request folderKey] := drive_frame 3 asked

theorem served_current_file : ∃ v : View, v.shown.files = 1 ∧
    Current (fun _ => none) (fun _ => none) loaded folderKey v.shown := by
  have hres : (viewed.result.any fun p =>
      p.1 = loaded.request folderKey ∧ p.2.shown.files = 1) = true := by decide +kernel
  obtain ⟨⟨r, v⟩, hr, hchk⟩ := (any_eq_true _ _).mp hres
  obtain ⟨rfl, hfls⟩ := of_decide_eq_true hchk
  have hkn : Known loaded folderKey := by
    have hsm : (loaded.stats folderKey.place.bucket folderKey.place.path).isSome = true := by
      decide +kernel
    exact isSome_iff_ne_none.mp hsm
  obtain ⟨hdt, -, hjoi⟩ := viewed_frame
  have hmem : loaded.request folderKey ∈ viewed.joined := hjoi ▸ mem_cons_self
  have hcur := served_current (run_viewed hkn)
    (.finish hmem (mem_of_result hr) rfl rfl) (congrArg revision hdt.symm)
  rw [hdt] at hcur
  exact ⟨v, hfls, hcur⟩

/-- The data once the file is removed, and with it its folder. -/
def emptied : StorageData := loaded.remove sampleObject.key 0

theorem shown_emptied {shown : Shown}
    (h : Current (fun _ => none) (fun _ => none) emptied folderKey shown) : shown.files = 0 := by
  obtain ⟨n, hn⟩ := h
  have hdn : (rounds (rowOf (fun _ => none) folderKey.place) folderKey.place emptied 1).resume
      = .done := by decide +kernel
  have hshn := hn (max n 1) (le_max_left n 1)
  rw [scratch_rows rfl hdn (le_max_right n 1)] at hshn
  have hfls : (arrange folderKey none
      (rounds (rowOf (fun _ => none) folderKey.place) folderKey.place emptied 1).found none).files
        = 0 := by decide +kernel
  exact some.inj hshn ▸ hfls

/-- **A view outlives its folder**: the view of a folder that was there when the index was built is
served as current after the folder's last file is gone. -/
theorem view_outlives_folder : ∃ (s s' : Service) (r : ViewRequest) (v : View),
    Run (fun _ => none) (fun _ => none) (fun _ _ => True) s
      ∧ Step (fun _ => none) (fun _ => none) (fun _ _ => True) s (some ⟨r, v, false⟩) s'
      ∧ r.began = s.data.revision
      ∧ ¬Current (fun _ => none) (fun _ => none) s.data r.key v.shown := by
  have hres : (viewed.result.any fun p => p.1 = loaded.request folderKey
      ∧ p.2.stamp = (emptied.request folderKey).stamp
      ∧ p.2.shown.files = 1) = true := by decide +kernel
  obtain ⟨⟨r, v⟩, hr, hchk⟩ := (any_eq_true _ _).mp hres
  obtain ⟨rfl, hstamp, hfls⟩ := of_decide_eq_true hchk
  obtain ⟨hdt, hvws, hjoi⟩ := viewed_frame
  have run : Run (fun _ => none) (fun _ => none) (fun _ _ => True) viewed := run_viewed trivial
  have hmem : loaded.request folderKey ∈ viewed.joined := hjoi ▸ mem_cons_self
  have hcch := run.step (.finish hmem (mem_of_result hr) rfl rfl)
  have hvl : emptied.values = [] := by decide +kernel
  have hrem : StorageData.Step (fun _ => none) viewed.data emptied :=
    hdt ▸ .remove sampleObject.key 0
  have hch := hcch.step (.change hrem (hvl ▸ fits_nil))
  have hkp : viewed.keep (loaded.request folderKey) v folderKey = some v := by
    rw [keep, if_neg (by simp [hvws])]
    exact update_self ..
  refine ⟨_, _, emptied.request folderKey, v, hch.step (.begin trivial),
    .hit mem_cons_self hkp hstamp, rfl, fun hcur => ?_⟩
  rw [shown_emptied hcur] at hfls
  cases hfls

end Service

end Firenook.Storage
