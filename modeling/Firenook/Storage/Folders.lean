import Mathlib.Data.List.Infix
import Mathlib.Data.List.Pairwise
import Firenook.Storage.FolderIndex

/-!
# Folders — the chain of a name, and what one change does to each folder

The chain of a name has exactly the folders whose path is a prefix of it (`mem_chain`), each above
the next one (`chain_sorted`), the last of them the folder the name lies in (`getLast_chain`). So a
change can be read folder by folder (**`Move.folder_apply`**): a folder off the chain keeps its
entry; one on it moves, counts the folders below it that came or went, and is dropped if it went.
-/

namespace Firenook.Storage

open List Std ExtTreeMap

variable {p : Text} {fs : List Folder} {f : Text × Text} {name : Text} {x : Folder}

/-! ### Paths -/

/-- A segment is a slash after text without one, under the root or a prefix that ends in a slash. -/
def Folder.Valid : Folder → Prop
  | none => True
  | some (parent, segment) =>
    (parent = [] ∨ endsInSlash parent = true) ∧ ∃ own, slash ∉ own ∧ segment = own ++ [slash]

/-- The second folder lies below the first one. -/
def Folder.Above (x : Folder) (f : Text × Text) : Prop := x.path <+: f.1

instance (x : Folder) (f : Text × Text) : Decidable (x.Above f) := inferInstanceAs (Decidable (_ <+: _))

theorem endsInSlash_iff : endsInSlash p = true ↔ ∃ q, p = q ++ [slash] := by
  rw [endsInSlash, beq_iff_eq, getLast?_eq_some_iff]

/-- The first slash of a text, seen from any prefix that ends in a slash. -/
theorem isPrefix_of_slash {own : Text} (rest x : Text) (hown : slash ∉ own)
    (h : x ++ [slash] <+: own ++ slash :: rest) : own ++ [slash] <+: x ++ [slash] := by
  have hfst : own ++ [slash] <+: own ++ slash :: rest := ⟨rest, by simp⟩
  refine prefix_of_prefix_length_le hfst h ?_
  rw [length_append, length_append, Nat.add_le_add_iff_right]
  by_contra hlt
  have hget : (own ++ slash :: rest)[x.length]? = some slash := by
    obtain ⟨t, ht⟩ := h
    rw [← ht]
    simp
  rw [getElem?_append_left (Nat.lt_of_not_le hlt)] at hget
  exact hown (mem_of_getElem? hget)

theorem mem_chainFrom {rest parent segment : Text}
    (hpar : parent = [] ∨ endsInSlash parent = true) (hseg : slash ∉ segment)
    (f : Text × Text) : f ∈ chainFrom parent segment rest ↔
      Folder.Valid (some f) ∧ parent <+: f.1 ∧ f.1 ++ f.2 <+: parent ++ (segment ++ rest) := by
  induction rest generalizing parent segment with
  | nil =>
    simp only [chainFrom, not_mem_nil, append_nil, false_iff]
    rintro ⟨⟨-, own, -, hown⟩, ⟨r, hr⟩, hpt⟩
    rw [← hr, hown, append_assoc, prefix_append_right_inj] at hpt
    exact hseg (hpt.subset (by simp))
  | cons c cs ih =>
    rw [chainFrom]
    split
    · next hc =>
      subst hc
      have hdp : endsInSlash (parent ++ (segment ++ [slash])) = true :=
        endsInSlash_iff.mpr ⟨parent ++ segment, by simp⟩
      rw [mem_cons, ih (.inr hdp) (by simp)]
      constructor
      · rintro (rfl | ⟨hvld, hbel, hpt⟩)
        · exact ⟨⟨hpar, segment, hseg, rfl⟩, prefix_refl _, ⟨cs, by simp⟩⟩
        · exact ⟨hvld, (prefix_append _ _).trans hbel, by simpa using hpt⟩
      · rintro ⟨hvld, ⟨r, hr⟩, hpt⟩
        obtain ⟨p, s⟩ := f
        obtain ⟨hp, own, hown, hs⟩ := hvld
        obtain rfl : parent ++ r = p := hr
        obtain rfl : s = own ++ [slash] := hs
        rw [append_assoc, prefix_append_right_inj] at hpt
        -- Either the folder starts where the scan stands, or a slash of its parent comes first.
        rcases eq_nil_or_concat r with rfl | ⟨r, d, rfl⟩
        · left
          have hfst := isPrefix_of_slash _ _ hseg hpt
          have hsm := isPrefix_of_slash [] segment hown hfst
          have := hfst.eq_of_length_le hsm.length_le
          simp_all
        · right
          have hd : d = slash := by
            rcases hp with hp | hp
            · simp at hp
            · obtain ⟨q, hq⟩ := endsInSlash_iff.mp hp
              rw [concat_eq_append, ← append_assoc] at hq
              exact cons.inj (append_inj_right' hq rfl) |>.1
          subst hd
          rw [concat_eq_append] at hp hpt ⊢
          have hfst := isPrefix_of_slash _ r hseg
            ((prefix_append (r ++ [slash]) (own ++ [slash])).trans hpt)
          refine ⟨⟨hp, own, hown, rfl⟩, ?_, ?_⟩
          · rwa [prefix_append_right_inj]
          · simpa using hpt
    · next hc =>
      have hseg' : slash ∉ segment ++ [c] := by
        simp [hseg, Ne.symm hc]
      rw [ih hpar hseg']
      simp

/-- **The chain of a name** has the folders whose path is a prefix of it. -/
theorem mem_chain : x ∈ chain name ↔ x.Valid ∧ x.path <+: name := by
  rw [chain, mem_cons]
  cases x with
  | none => simp [Folder.Valid, Folder.path]
  | some f =>
    rw [mem_map_of_injective (Option.some_injective _), mem_chainFrom (.inl rfl) (by simp) f]
    simp [Folder.path]

/-! ### Order -/

theorem chainFrom_above {rest : Text} : ∀ {parent segment : Text},
    (∀ f ∈ chainFrom parent segment rest, parent <+: f.1) ∧
      (chainFrom parent segment rest).Pairwise (fun e f => Folder.Above (some e) f) := by
  induction rest with
  | nil => simp [chainFrom]
  | cons c cs ih =>
    intro parent segment
    rw [chainFrom]
    split
    · obtain ⟨hbel, hsrt⟩ := @ih (parent ++ (segment ++ [c])) []
      refine ⟨?_, pairwise_cons.mpr ⟨hbel, hsrt⟩⟩
      intro f hf
      rcases mem_cons.mp hf with rfl | hf
      · exact prefix_refl _
      · exact (prefix_append _ _).trans (hbel f hf)
    · exact ih

/-- A folder's path is shorter than that of one below it. -/
theorem Folder.Above.length_lt (h : x.Above f) (hf : Folder.Valid (some f)) :
    x.path.length < (Folder.path (some f)).length := by
  obtain ⟨-, own, -, hown⟩ := hf
  have hle := h.length_le
  rw [Folder.path, hown, length_append, length_append, length_singleton]
  omega

theorem chain_sorted (name : Text) :
    (chain name).Pairwise (fun x y => x.path.length < y.path.length) := by
  have hvld : ∀ f ∈ chainFrom [] [] name, Folder.Valid (some f) := by
    intro f hf
    exact ((mem_chainFrom (.inl rfl) (by simp) f).mp hf).1
  rw [chain, pairwise_cons, pairwise_map]
  refine ⟨?_, ?_⟩
  · intro y hy
    obtain ⟨f, hf, rfl⟩ := mem_map.mp hy
    exact Folder.Above.length_lt (x := none) nil_prefix (hvld f hf)
  · refine (chainFrom_above.2).imp_of_mem ?_
    intro e f _ hf hab
    exact hab.length_lt (hvld f hf)

theorem chain_nodup (name : Text) : (chain name).Nodup :=
  (chain_sorted name).imp fun h heq => by simp [heq] at h

theorem Folder.Valid.eq_of_path {y : Folder} (hx : x.Valid) (hy : y.Valid) (h : x.path = y.path) :
    x = y := by
  have hxm : x ∈ chain x.path := mem_chain.mpr ⟨hx, prefix_refl _⟩
  have hym : y ∈ chain x.path := mem_chain.mpr ⟨hy, h ▸ prefix_refl _⟩
  by_contra hne
  have hsy : Symm fun a b : Folder => a.path.length ≠ b.path.length := ⟨fun _ _ => Ne.symm⟩
  have hsrt : (chain x.path).Pairwise fun a b => a.path.length ≠ b.path.length :=
    (chain_sorted x.path).imp fun h => Nat.ne_of_lt h
  exact hsrt.forall hxm hym hne (congrArg length h)

theorem splitFolder_spec (hp : endsInSlash p = true) :
    Folder.Valid (some (splitFolder p)) ∧ Folder.path (some (splitFolder p)) = p := by
  obtain ⟨q, rfl⟩ := endsInSlash_iff.mp hp
  rw [splitFolder, dropLast_concat]
  cases h : rsplitOnce q with
  | none => exact ⟨⟨.inl rfl, q, rsplitOnce_eq_none.mp h, rfl⟩, rfl⟩
  | some parts =>
    obtain ⟨parent, own⟩ := parts
    obtain ⟨rfl, hown⟩ := rsplitOnce_eq_some.mp h
    exact ⟨⟨.inr (endsInSlash_iff.mpr ⟨parent, rfl⟩), own, hown, rfl⟩, by simp [Folder.path]⟩

/-- Every prefix that can be a folder's path is one. -/
theorem exists_folder (hp : p = [] ∨ endsInSlash p = true) :
    ∃ x : Folder, x.Valid ∧ x.path = p := by
  rcases hp with rfl | hp
  · exact ⟨none, trivial, rfl⟩
  · exact ⟨_, splitFolder_spec hp⟩

theorem Folder.Valid.path_cases (hx : x.Valid) : x.path = [] ∨ endsInSlash x.path = true := by
  cases x with
  | none => exact .inl rfl
  | some f =>
    obtain ⟨-, own, -, hown⟩ := hx
    exact .inr (endsInSlash_iff.mpr ⟨f.1 ++ own, by rw [Folder.path, hown, append_assoc]⟩)

/-- The folders above one of the chain. -/
theorem mem_take_chain {i : Nat} (hi : (chain name)[i]? = some (some f)) :
    x ∈ (chain name).take i ↔ x ∈ chain name ∧ x.Above f := by
  obtain ⟨hlt, hget⟩ := List.getElem?_eq_some_iff.mp hi
  have hspl : chain name = (chain name).take i ++ some f :: (chain name).drop (i + 1) := by
    rw [← hget, getElem_cons_drop hlt, take_append_drop]
  have hvld : Folder.Valid (some f) := (mem_chain.mp (mem_of_getElem? hi)).1
  constructor
  · intro hx
    refine ⟨mem_of_mem_take hx, ?_⟩
    have hab : (chain name).Pairwise fun x y => ∀ f, y = some f → Folder.Above x f := by
      rw [chain, pairwise_cons, pairwise_map]
      refine ⟨fun _ _ _ _ => nil_prefix, chainFrom_above.2.imp ?_⟩
      rintro e f h _ ⟨⟩
      exact h
    rw [hspl] at hab
    exact (pairwise_append.mp hab).2.2 x hx _ mem_cons_self f rfl
  · rintro ⟨hx, hab⟩
    by_contra hnot
    have hsrt := chain_sorted name
    rw [hspl, mem_append] at hx
    rw [hspl] at hsrt
    rcases mem_cons.mp (hx.resolve_left hnot) with rfl | hx
    · exact absurd (hab.length_lt hvld) (Nat.lt_irrefl _)
    · have haft := (pairwise_cons.mp (pairwise_append.mp hsrt).2.1).1 x hx
      exact absurd (hab.length_lt hvld) (Nat.lt_asymm haft)

/-- The last of a sorted list is the longest. -/
theorem length_le_getLast {xs : List Folder} {z : Folder}
    (hs : xs.Pairwise fun x y => x.path.length < y.path.length) (hz : xs.getLast? = some z)
    (hx : x ∈ xs) : x = z ∨ x.path.length < z.path.length := by
  obtain ⟨ys, rfl⟩ := getLast?_eq_some_iff.mp hz
  rcases mem_append.mp hx with hx | hx
  · exact .inr ((pairwise_append.mp hs).2.2 x hx z (mem_singleton_self z))
  · exact .inl (mem_singleton.mp hx)

/-- The last folder above one of the chain is its parent. -/
theorem getLast_take_chain {i : Nat} (hi : (chain name)[i]? = some (some f)) (hx : x ∈ chain name) :
    ((chain name).take i).getLast? = some x ↔ x.path = f.1 := by
  obtain ⟨hvld, hpt⟩ := mem_chain.mp (mem_of_getElem? hi)
  obtain ⟨y, hy, hyf⟩ := exists_folder hvld.1
  have hmem : y ∈ (chain name).take i := by
    refine (mem_take_chain hi).mpr ⟨mem_chain.mpr ⟨hy, ?_⟩,
      show y.path <+: f.1 from hyf ▸ prefix_refl _⟩
    rw [hyf]
    exact (prefix_append _ _).trans hpt
  have hsrt := (chain_sorted name).sublist (take_sublist i (chain name))
  -- The parent is above the folder, and everything above it is above the parent or the parent.
  obtain ⟨z, hz⟩ : ∃ z, ((chain name).take i).getLast? = some z :=
    ⟨_, getLast?_eq_some_getLast (ne_nil_of_mem hmem)⟩
  have hzy : z = y := by
    have hab := ((mem_take_chain hi).mp (mem_of_getLast? hz)).2
    rcases length_le_getLast hsrt hz hmem with h | h
    · exact h.symm
    · exact absurd (hyf ▸ hab.length_le) (Nat.not_le_of_lt h)
  subst hzy
  rw [hz, Option.some.injEq]
  constructor
  · rintro rfl
    exact hyf
  · intro h
    exact hy.eq_of_path (mem_chain.mp hx).1 (hyf.trans h.symm)

/-- The last folder of the chain is the one the name lies in. -/
theorem getLast_chain (hx : x ∈ chain name) :
    (chain name).getLast? = some x ↔ slash ∉ name.drop x.path.length := by
  obtain ⟨z, hz⟩ : ∃ z, (chain name).getLast? = some z :=
    ⟨_, getLast?_eq_some_getLast (ne_nil_of_mem hx)⟩
  obtain ⟨hvld, r, hr⟩ := mem_chain.mp hx
  have hdr : name.drop x.path.length = r := by rw [← hr, drop_left]
  rw [hdr, hz, Option.some.injEq]
  constructor
  · rintro rfl hsl
    obtain ⟨r₁, r₂, rfl⟩ := append_of_mem hsl
    obtain ⟨y, hy, hyp⟩ := exists_folder (p := z.path ++ (r₁ ++ [slash]))
      (.inr (endsInSlash_iff.mpr ⟨z.path ++ r₁, by simp⟩))
    have hym : y ∈ chain name := mem_chain.mpr ⟨hy, hyp ▸ ⟨r₂, by rw [← hr]; simp⟩⟩
    have hlt : z.path.length < y.path.length := by simp [hyp]
    rcases length_le_getLast (chain_sorted name) hz hym with rfl | h
    · exact absurd hlt (Nat.lt_irrefl _)
    · exact absurd hlt (Nat.lt_asymm h)
  · intro hsl
    rcases length_le_getLast (chain_sorted name) hz hx with h | h
    · exact h.symm
    exfalso
    obtain ⟨hzv, hzp⟩ := mem_chain.mp (mem_of_getLast? hz)
    obtain ⟨t, ht⟩ := prefix_of_prefix_length_le ⟨r, hr⟩ hzp h.le
    have htr : t <+: r := by
      rw [← ht, ← hr, prefix_append_right_inj] at hzp
      exact hzp
    rcases hzv.path_cases with hnil | hend
    · simp [hnil] at h
    obtain ⟨q, hq⟩ := endsInSlash_iff.mp hend
    have hne : t ≠ [] := by
      rintro rfl
      simp [← ht] at h
    obtain ⟨t', d, rfl⟩ := (eq_nil_or_concat t).resolve_left hne
    rw [hq, concat_eq_append, ← append_assoc] at ht
    obtain rfl : d = slash := (cons.inj (append_inj_right' ht rfl)).1
    exact hsl (htr.subset (by simp))

/-! ### Entries -/

namespace BucketIndex

theorem folder_setFolder (index : BucketIndex) (stats : FolderStats) (f x : Folder) :
    (index.setFolder stats f).folder x = if f = x then some stats else index.folder x := by
  rcases f with _ | ⟨p, s⟩ <;> rcases x with _ | ⟨q, t⟩
  · rfl
  · rfl
  · rfl
  rw [setFolder, folder, folder]
  by_cases hp : p = q
  · subst hp
    rw [getElem?_insert_self, Option.bind_some]
    by_cases hs : s = t
    · subst hs
      rw [getElem?_insert_self, if_pos rfl]
    rw [ExtTreeMap.getElem?_insert, if_neg (by simpa using hs), if_neg (by simpa using hs),
      ExtTreeMap.getD_eq_getD_getElem?]
    cases index.children[p]? with
    | none => simp
    | some siblings => rfl
  · rw [ExtTreeMap.getElem?_insert]
    simp [hp]

theorem folder_modify (index : BucketIndex) (update : FolderStats → FolderStats) (f x : Folder) :
    (index.modify update f).folder x
      = if f = x then (index.folder x).map update else index.folder x := by
  rw [modify]
  cases hs : index.folder f with
  | none =>
    by_cases hx : f = x
    · subst hx
      simp [hs]
    · rw [if_neg hx]
  | some s =>
    rw [folder_setFolder]
    by_cases hx : f = x
    · subst hx
      rw [if_pos rfl, if_pos rfl, hs, Option.map_some]
    · rw [if_neg hx, if_neg hx]

theorem folder_dropFolder (index : BucketIndex) (f x : Folder) :
    (index.dropFolder f).folder x = if f = x ∧ x ≠ none then none else index.folder x := by
  rcases f with _ | ⟨p, s⟩ <;> rcases x with _ | ⟨q, t⟩
  · rfl
  · rfl
  · rw [if_neg (by simp), dropFolder]
    cases index.children[p]? with
    | none => rfl
    | some siblings =>
      dsimp only
      split <;> rfl
  · rw [dropFolder]
    cases hp : index.children[p]? with
    | none =>
      by_cases hpq : p = q
      · subst hpq
        simp [folder, hp]
      · rw [if_neg (by simp [hpq])]
    | some siblings =>
      by_cases hpq : p = q
      · subst hpq
        have hsib : (siblings.erase s)[t]? = if s = t then none else siblings[t]? := by
          by_cases hst : s = t
          · simp [hst]
          · rw [getElem?_erase, if_neg (by simpa using hst), if_neg hst]
        dsimp only
        split
        · next hemp =>
          rw [ExtTreeMap.isEmpty_iff] at hemp
          rw [hemp] at hsib
          by_cases hst : s = t
          · simp [folder, hst]
          · simp [folder, hp]
            simpa [hst] using hsib
        · by_cases hst : s = t
          · simp [folder, hst]
          · simp [folder, hst, hp, hsib]
      · dsimp only
        split
        · simp [folder, hpq, getElem?_erase]
        · simp [folder, hpq, ExtTreeMap.getElem?_insert]

end BucketIndex

/-! ### The passes of a change -/

namespace Move

/-- A folder of the chain after the first pass, `last` being the one the name lies in. -/
def moved (m : Move) (last f : Folder) (s : FolderStats) : FolderStats :=
  m.stamps (decide (f = last)) (m.counts (decide (f = last)) s)

/-- The first pass, folder by folder: `g` is what the entries held before it. -/
theorem descend_spec (m : Move) (last : Folder) (g : Folder → FolderStats) (hnd : fs.Nodup)
    (hlast : ∀ l, fs.getLast? = some l → l = last) (depth : Nat) (index : BucketIndex)
    (hg : ∀ f ∈ fs, (index.folder f).getD {} = g f) :
    (∀ x, (m.descend depth fs index).1.folder x
      = if x ∈ fs then some (m.moved last x (g x)) else index.folder x) ∧
    (m.descend depth fs index).2.1 = (fs.zipIdx depth).filterMap (fun p =>
      if 0 < p.2 ∧ (g p.1).present ≠ (m.moved last p.1 (g p.1)).present then
        some (p.2, (m.moved last p.1 (g p.1)).present) else none) ∧
    (m.descend depth fs index).2.2 = (fs.zipIdx depth).filterMap (fun p =>
      if 0 < p.2 ∧ (m.moved last p.1 (g p.1)).present = false then some p.2 else none) := by
  induction fs generalizing depth index with
  | nil =>
    simp [descend]
  | cons f rest ih =>
    obtain ⟨hf, hrs⟩ := nodup_cons.mp hnd
    have hlf : rest.isEmpty = decide (f = last) := by
      cases rest with
      | nil => simpa using hlast f rfl
      | cons r rest =>
        have hl := hlast _ (getLast?_eq_some_getLast (by simp))
        have hne : f ≠ last := by
          rintro rfl
          exact hf (hl ▸ getLast_mem _)
        simp [hne]
    have hmov : m.stamps rest.isEmpty (m.counts rest.isEmpty ((index.folder f).getD {}))
        = m.moved last f (g f) := by rw [hlf, hg f mem_cons_self, moved]
    have hlast' : ∀ l, rest.getLast? = some l → l = last := by
      intro l hl
      refine hlast l ?_
      rw [getLast?_cons, hl, Option.getD_some]
    have hg' : ∀ x ∈ rest, ((index.setFolder (m.moved last f (g f)) f).folder x).getD {} = g x := by
      intro x hx
      rw [BucketIndex.folder_setFolder, if_neg fun h : f = x => hf (h ▸ hx)]
      exact hg x (mem_cons_of_mem _ hx)
    obtain ⟨hent, hfls, hgn⟩ :=
      ih hrs hlast' (depth + 1) (index.setFolder (m.moved last f (g f)) f) hg'
    simp only [descend, hmov, zipIdx_cons, filterMap_cons]
    refine ⟨?_, ?_, ?_⟩
    · intro x
      rw [hent x, BucketIndex.folder_setFolder]
      by_cases hx : x ∈ rest
      · rw [if_pos hx, if_pos (mem_cons_of_mem _ hx)]
      by_cases hfx : f = x
      · subst hfx
        rw [if_neg hx, if_pos rfl, if_pos mem_cons_self]
      · rw [if_neg hx, if_neg hfx, if_neg (by simp [hx, Ne.symm hfx])]
    · rw [hfls, hg f mem_cons_self]
      split <;> rfl
    · rw [hgn]
      split <;> rfl

theorem countFlip_spec (m : Move) (came : Bool) {index : BucketIndex} (hnd : fs.Nodup)
    (x : Folder) : (m.countFlip came fs index).folder x
      = if x ∈ fs then (index.folder x).map (m.flip came (decide (fs.getLast? = some x)))
        else index.folder x := by
  induction fs generalizing index with
  | nil =>
    simp [countFlip]
  | cons f rest ih =>
    obtain ⟨hf, hrs⟩ := nodup_cons.mp hnd
    rw [countFlip, ih hrs, BucketIndex.folder_modify]
    by_cases hx : x ∈ rest
    · have hne : f ≠ x := fun h => hf (h ▸ hx)
      have hlast : (f :: rest).getLast? = rest.getLast? := by
        rw [getLast?_cons, getLast?_eq_some_getLast (ne_nil_of_mem hx)]
        rfl
      rw [if_pos hx, if_neg hne, if_pos (mem_cons_of_mem _ hx), hlast]
    · by_cases hfx : f = x
      · subst hfx
        rw [if_neg hx]
        cases rest with
        | nil => simp
        | cons r rest =>
          have hlast : (r :: rest).getLast? ≠ some f := fun h => hx (mem_of_getLast? h)
          simp [hlast]
      · rw [if_neg hx, if_neg hfx, if_neg (by simp [hx, Ne.symm hfx])]

/-- The second pass. -/
theorem countFlips_spec (m : Move) {folders : List Folder} (hnd : folders.Nodup) (x : Folder)
    (flips : List (Nat × Bool)) : ∀ index,
    (flips.foldl (fun index flip => m.countFlip flip.2 (folders.take flip.1) index) index).folder x
      = (index.folder x).map fun s => flips.foldl (fun s flip => if x ∈ folders.take flip.1 then
          m.flip flip.2 (decide ((folders.take flip.1).getLast? = some x)) s else s) s := by
  induction flips with
  | nil => simp
  | cons flip flips ih =>
    intro index
    rw [foldl_cons, ih, countFlip_spec m flip.2 (hnd.sublist (take_sublist _ _)) x]
    by_cases hx : x ∈ folders.take flip.1
    · simp [Function.comp_def, hx]
    · simp [hx]

/-- The third pass. -/
theorem dropFolders_spec (folders : List Folder) (x : Folder) (gone : List Nat) :
    ∀ index : BucketIndex,
    (gone.foldl (fun index depth => index.dropFolder (folders.getD depth none)) index).folder x
      = if x ≠ none ∧ x ∈ gone.map (folders.getD · none) then none else index.folder x := by
  induction gone with
  | nil => simp
  | cons depth gone ih =>
    intro index
    rw [foldl_cons, ih, BucketIndex.folder_dropFolder]
    simp only [map_cons, mem_cons]
    by_cases hx : x = none
    · simp [hx]
    by_cases hd : folders.getD depth none = x
    · simp only [hx, hd, ne_eq, not_false_eq_true, true_and, true_or, and_self, if_true, ite_self]
    · simp only [hx, hd, Ne.symm hd, ne_eq, not_false_eq_true, true_and, false_or, false_and,
        if_false]

/-- The folders that came or went, from the top. -/
def flipped (m : Move) (last : Folder) (g : Folder → FolderStats) : List ((Text × Text) × Bool) :=
  (chainFrom [] [] m.name).filterMap fun f =>
    if (g (some f)).present ≠ (m.moved last (some f) (g (some f))).present then
      some (f, (m.moved last (some f) (g (some f))).present) else none

/-- What a folder counts of those that came or went. -/
def counted (m : Move) (x : Folder) (flips : List ((Text × Text) × Bool)) (s : FolderStats) :
    FolderStats :=
  flips.foldl (fun s p => if x.Above p.1 then m.flip p.2 (decide (x.path = p.1.1)) s else s) s

/-- The second pass by depth is the one by folder. -/
theorem counted_eq (m : Move) (last : Folder) (g : Folder → FolderStats) (hx : x ∈ chain m.name)
    (s : FolderStats) :
    (((chain m.name).zipIdx 0).filterMap (fun p =>
        if 0 < p.2 ∧ (g p.1).present ≠ (m.moved last p.1 (g p.1)).present then
          some (p.2, (m.moved last p.1 (g p.1)).present) else none)).foldl
      (fun s flip => if x ∈ (chain m.name).take flip.1 then
        m.flip flip.2 (decide (((chain m.name).take flip.1).getLast? = some x)) s else s) s
      = m.counted x (m.flipped last g) s := by
  have hflp : m.flipped last g = ((chainFrom [] [] m.name).zipIdx 1).filterMap fun p =>
      if (g (some p.1)).present ≠ (m.moved last (some p.1) (g (some p.1))).present then
        some (p.1, (m.moved last (some p.1) (g (some p.1))).present) else none := by
    rw [flipped]
    conv_lhs => rw [show chainFrom [] [] m.name = ((chainFrom [] [] m.name).zipIdx 1).map Prod.fst
      by simp]
    rw [filterMap_map]
    rfl
  have hzip : (chain m.name).zipIdx 0
      = (none, 0) :: ((chainFrom [] [] m.name).zipIdx 1).map fun p => (some p.1, p.2) := by
    rw [chain, zipIdx_cons, zipIdx_map]
    rfl
  rw [counted, hflp, hzip, filterMap_cons_none (by simp), filterMap_map,
    foldl_filterMap, foldl_filterMap]
  refine foldl_ext _ _ _ ?_
  rintro s ⟨f, i⟩ hmem
  have hget : (chain m.name)[i]? = some (some f) := by
    obtain ⟨hle, hget⟩ := mem_zipIdx_iff_le_and_getElem?_sub.mp hmem
    obtain ⟨j, rfl⟩ := Nat.exists_eq_add_of_le' hle
    rw [chain, getElem?_cons_succ, getElem?_map, show (chainFrom [] [] m.name)[j]? = some f
      from hget, Option.map_some]
  have hpos : 0 < i := (mem_zipIdx_iff_le_and_getElem?_sub.mp hmem).1
  simp only [Function.comp_apply, hpos, true_and]
  by_cases hfl : (g (some f)).present ≠ (m.moved last (some f) (g (some f))).present
  · simp [hfl, mem_take_chain hget, hx, getLast_take_chain hget hx]
  · simp [hfl]

/-- The folders the third pass drops. -/
theorem mem_gone {P : Folder → Bool} (hx : x ≠ none) :
    x ∈ ((((chain name).zipIdx 0).filterMap fun p =>
      if 0 < p.2 ∧ P p.1 = false then some p.2 else none).reverse).map
        ((chain name).getD · none) ↔ x ∈ chain name ∧ P x = false := by
  simp only [mem_map, mem_reverse, mem_filterMap]
  constructor
  · rintro ⟨i, ⟨⟨f, j⟩, hmem, hi⟩, rfl⟩
    have hget : (chain name)[j]? = some f := mem_zipIdx_iff_getElem?.mp hmem
    split at hi
    · next h =>
      obtain rfl := Option.some.inj hi
      rw [getD_eq_getElem?_getD, hget]
      exact ⟨mem_of_getElem? hget, h.2⟩
    · cases hi
  · rintro ⟨hmem, hgn⟩
    obtain ⟨i, hi⟩ := mem_iff_getElem?.mp hmem
    refine ⟨i, ⟨(x, i), mem_zipIdx_iff_getElem?.mpr hi, if_pos ⟨?_, hgn⟩⟩, ?_⟩
    · rw [getD_eq_getElem?_getD, hi, Option.getD_some]
    · refine Nat.pos_of_ne_zero fun h => hx ?_
      rw [show i = 0 from h, chain] at hi
      exact (Option.some.inj hi).symm

/-- **A change, folder by folder**: `g` is what the entries held before it. -/
theorem folder_apply (m : Move) (index : BucketIndex) {last : Folder}
    (hlast : (chain m.name).getLast? = some last) {g : Folder → FolderStats}
    (hg : ∀ f ∈ chain m.name, (index.folder f).getD {} = g f) (x : Folder) :
    (m.apply index).folder x =
      if x ∈ chain m.name then
        if x ≠ none ∧ (m.moved last x (g x)).present = false then none
        else some (m.counted x (m.flipped last g) (m.moved last x (g x)))
      else index.folder x := by
  obtain ⟨hent, hfls, hgn⟩ := m.descend_spec last g (chain_nodup m.name)
    (fun l hl => Option.some.inj (hl.symm.trans hlast)) 0 index hg
  simp only [apply]
  rw [dropFolders_spec, countFlips_spec m (chain_nodup m.name), hent x, hfls, hgn]
  have hdrp : (x ≠ none ∧ x ∈ ((((chain m.name).zipIdx 0).filterMap fun p =>
      if 0 < p.2 ∧ (m.moved last p.1 (g p.1)).present = false then some p.2 else none).reverse).map
        ((chain m.name).getD · none)) ↔
      x ≠ none ∧ x ∈ chain m.name ∧ (m.moved last x (g x)).present = false :=
    and_congr_right fun hx => mem_gone (P := fun f => (m.moved last f (g f)).present) hx
  simp only [hdrp]
  by_cases hx : x ∈ chain m.name
  · simp [hx, counted_eq m last g hx]
  have hsm : ∀ s, foldl (fun s flip => if x ∈ (chain m.name).take flip.1 then
      m.flip flip.2 (decide (((chain m.name).take flip.1).getLast? = some x)) s else s) s
      (((chain m.name).zipIdx 0).filterMap (fun p =>
        if 0 < p.2 ∧ (g p.1).present ≠ (m.moved last p.1 (g p.1)).present then
          some (p.2, (m.moved last p.1 (g p.1)).present) else none)) = s := by
    intro s
    refine foldl_fixed' (fun flip => ?_) _
    rw [if_neg fun h => hx (mem_of_mem_take h)]
  simp only [hx, if_false, false_and, and_false]
  cases index.folder x with
  | none => rfl
  | some s => rw [Option.map_some, hsm]

end Move

end Firenook.Storage
