import Firenook.Pubsub.Operations

/-!
# Pubsub — Transitions

What the transitions of one subscription do to a message it holds unacknowledged. Every transition
keeps the indexes right and forgets no dead letter (`Ctx.Follows`), most keep every held message
(`Ctx.Gentle`), an acknowledgement and a removal touch one message only, and a nack keeps a message
or puts it among the dead letters (`Ctx.Safe`).
-/

namespace Firenook.Pubsub

open Option List Tracked

variable {x : SnapshotEntry} {delivered : Bool} {change : Tracked → Tracked} {t : Tracked}
  {acks : List Nat} {seconds : Nat}

namespace SubscriptionEntry
variable {e : SubscriptionEntry} {id j : Nat} {m : StoredMessage}

/-- The subscription tracks the message and has not acknowledged it. -/
def Holds (e : SubscriptionEntry) (id : Nat) (m : StoredMessage) : Prop :=
  ∃ t : Tracked, e.messages[id]? = some t ∧ t.message = m ∧ t.unacked = true

@[simp] theorem subscription_update : (e.update j change).subscription = e.subscription := by
  unfold update
  split <;> rfl

@[simp] theorem subscription_remove : (e.remove j).subscription = e.subscription := by
  unfold remove
  split <;> rfl

theorem messages_update : (e.update j change).messages[id]? =
      if j = id then e.messages[id]?.map change else e.messages[id]? := by
  unfold update
  split
  · next hnn =>
    split
    · next heq => rw [← heq, hnn]; rfl
    · rfl
  · next t ht =>
    simp only [Std.ExtTreeMap.getElem?_insert, compare_eq_iff_eq]
    split
    · next heq => rw [← heq, ht]; rfl
    · rfl

theorem messages_remove :
    (e.remove j).messages[id]? = if j = id then none else e.messages[id]? := by
  unfold remove
  split
  · next hnn =>
    split
    · next heq => rw [← heq, hnn]
    · rfl
  · simp [Std.ExtTreeMap.getElem?_erase]

theorem Holds.update (h : e.Holds id m) (hmsg : ∀ t, (change t).message = t.message)
    (huna : ∀ t, t.unacked = true → (change t).unacked = true) :
    (e.update j change).Holds id m := by
  obtain ⟨t, ht, rfl, hu⟩ := h
  by_cases heq : j = id
  · exact ⟨change t, by simp [messages_update, heq, ht], hmsg t, huna t hu⟩
  · exact ⟨t, by simpa [messages_update, heq] using ht, rfl, hu⟩

/-- Only a message that is not tracked yet is inserted. -/
theorem Holds.insert (h : e.Holds id m) (hnew : e.messages[t.message.id]? = none) :
    (e.insert t).Holds id m := by
  obtain ⟨t', ht', hm, hu⟩ := h
  have hne : t.message.id ≠ id := by
    rintro rfl
    rw [hnew] at ht'
    cases ht'
  exact ⟨t', by simpa [SubscriptionEntry.insert, Std.ExtTreeMap.getElem?_insert, hne] using ht', hm, hu⟩

theorem Holds.remove (h : e.Holds id m) (hne : j ≠ id) : (e.remove j).Holds id m := by
  obtain ⟨t, ht, hm, hu⟩ := h
  exact ⟨t, by simpa [messages_remove, hne] using ht, hm, hu⟩

end SubscriptionEntry

namespace Ctx
open SubscriptionEntry
variable {c c' d : Ctx} {id j : Nat} {m : StoredMessage} {now : Instant}

/-! ### Transitions and their composition -/

/-- What every transition keeps. -/
structure Follows (c c' : Ctx) : Prop where
  name : c'.name = c.name
  settings : c'.entry.subscription = c.entry.subscription
  indexed : c.entry.Indexed → c'.entry.Indexed
  forwarded : c.effects.forwarded ⊆ c'.effects.forwarded

/-- A transition that lets go of no unacknowledged message. -/
structure Gentle (c c' : Ctx) : Prop extends Follows c c' where
  held : ∀ {id m}, c.entry.Holds id m → c'.entry.Holds id m

theorem Follows.rfl : Follows c c :=
  ⟨Eq.refl _, Eq.refl _, fun h => h, List.Subset.refl _⟩

theorem Follows.trans (h : Follows c c') (h' : Follows c' d) : Follows c d :=
  ⟨h'.name.trans h.name, h'.settings.trans h.settings, fun hi => h'.indexed (h.indexed hi),
    List.Subset.trans h.forwarded h'.forwarded⟩

theorem Gentle.rfl : Gentle c c := ⟨Follows.rfl, fun h => h⟩

theorem Gentle.trans (h : Gentle c c') (h' : Gentle c' d) : Gentle c d :=
  ⟨h.toFollows.trans h'.toFollows, fun hm => h'.held (h.held hm)⟩

section Loop
variable {α : Type} {op : Ctx → α → Ctx}

theorem Follows.foldl (l : List α) (h : ∀ c, ∀ a ∈ l, Follows c (op c a)) :
    Follows c (l.foldl op c) :=
  foldlRecOn (motive := fun d => Follows c d) l op Follows.rfl fun d hd a ha => hd.trans (h d a ha)

theorem Gentle.foldl (l : List α) (h : ∀ c, ∀ a ∈ l, Gentle c (op c a)) : Gentle c (l.foldl op c) :=
  foldlRecOn (motive := fun d => Gentle c d) l op Gentle.rfl fun d hd a ha => hd.trans (h d a ha)

end Loop

/-- Bookkeeping outside the entry. -/
theorem Gentle.of_entry (hname : c'.name = c.name) (hent : c'.entry = c.entry)
    (hfw : c'.effects.forwarded = c.effects.forwarded) : Gentle c c' where
  name := hname
  settings := by rw [hent]
  indexed h := by rwa [hent]
  forwarded := by rw [hfw]; exact List.Subset.refl _
  held h := by rwa [hent]

/-! ### Holders -/

theorem gentle_hold : Gentle c (c.hold id) := .of_entry rfl rfl rfl

theorem gentle_keepForPeers : Gentle c (c.keepForPeers id) := .of_entry rfl rfl rfl

theorem gentle_forgetPeerCopy : Gentle c (c.forgetPeerCopy id) := .of_entry rfl rfl rfl

theorem letGo_entry : (c.letGo id).2.entry = c.entry := by
  unfold letGo
  repeat' split
  all_goals rfl

theorem gentle_letGo : Gentle c (c.letGo id).2 := by
  refine .of_entry ?_ letGo_entry ?_ <;> unfold letGo <;> repeat' split
  all_goals rfl

/-! ### Messages that change state -/

theorem follows_update : Follows c (c.update j change) :=
  ⟨rfl, subscription_update, fun h => h.update j change, List.Subset.refl _⟩

theorem gentle_update (hmsg : ∀ t, (change t).message = t.message)
    (huna : ∀ t, t.unacked = true → (change t).unacked = true) : Gentle c (c.update j change) :=
  ⟨follows_update, fun h => h.update hmsg huna⟩

theorem gentle_setState {state : MessageState} (h : state ≠ .acked) :
    Gentle c (c.setState j state) :=
  gentle_update (fun _ => rfl) fun _ _ => by simpa [unacked] using h

theorem delivered_unacked : c.delivered now ≠ .acked := by
  unfold delivered
  split <;> simp

theorem gentle_insert (hnew : c.entry.messages[t.message.id]? = none) :
    Gentle c { c with entry := c.entry.insert t } :=
  ⟨⟨rfl, rfl, fun h => h.insert hnew, List.Subset.refl _⟩, fun h => h.insert hnew⟩

theorem gentle_track {message : StoredMessage} : Gentle c (c.track now message) := by
  unfold track
  split
  · exact .rfl
  next h =>
  have hnew : c.entry.messages[message.id]? = none := by
    simp only [Bool.or_eq_true, not_or] at h
    simpa using h.2
  exact (gentle_insert hnew).trans gentle_hold

theorem gentle_take {maxMessages ack : Nat} : Gentle c (c.take maxMessages ack now).2 := by
  refine foldlRecOn (motive := fun r : Nat × Ctx => Gentle c r.2) _ _ .rfl fun r hr id _ => ?_
  exact hr.trans (gentle_update (fun _ => rfl) fun _ _ => by simp [unacked])

theorem gentle_revive : Gentle c (c.revive j now) := by
  have hupd : Gentle c (c.update j fun t => { t with state := c.delivered now, attempts := 0 }) :=
    gentle_update (fun _ => rfl) fun _ _ => by simpa [unacked] using delivered_unacked
  unfold revive
  split
  · exact .rfl
  · split
    · exact hupd
    · exact hupd.trans gentle_hold

theorem gentle_setPush {at' : Instant} {attempts : Nat} : Gentle c (c.setPush j at' attempts) := by
  refine gentle_update (fun t => ?_) fun t ht => ?_
  · split <;> rfl
  · split
    · simp [unacked]
    · exact ht

theorem gentle_switchDelivery {wasPush : Bool} : Gentle c (c.switchDelivery wasPush now) := by
  unfold switchDelivery
  split
  · exact .foldl _ fun _ _ _ => gentle_setState (by simp)
  · split
    · exact .foldl _ fun _ _ _ => gentle_setState (by simp)
    · exact .rfl

/-! ### Messages let go of -/

theorem follows_removeEntry : Follows c { c with entry := c.entry.remove j } :=
  ⟨rfl, subscription_remove, fun h => h.remove j, List.Subset.refl _⟩

theorem follows_dropAcked : Follows c (c.dropAcked j) := by
  unfold dropAcked
  split
  · exact follows_removeEntry.trans gentle_forgetPeerCopy.toFollows
  · exact .rfl

theorem dropAcked_held (h : c.entry.Holds id m) (hne : j ≠ id) :
    (c.dropAcked j).entry.Holds id m := by
  unfold dropAcked
  split
  · exact gentle_forgetPeerCopy.held (h.remove hne)
  · exact h

theorem gentle_reconsider : Gentle c (c.reconsider j) := by
  unfold reconsider
  split
  · exact .rfl
  next hack =>
  split
  · exact gentle_keepForPeers
  split
  · refine ⟨follows_dropAcked, fun h => dropAcked_held h ?_⟩
    rintro rfl
    obtain ⟨t, ht, -, hu⟩ := h
    simp [ht, hu] at hack
  · exact .rfl

theorem gentle_reconsiderAll : Gentle c c.reconsiderAll :=
  .foldl _ fun _ _ _ => gentle_reconsider

theorem follows_pruneRetained {cap : Nat} : Follows c (c.pruneRetained now cap) :=
  .foldl _ fun _ _ _ => follows_dropAcked

/-- Only ids of the acknowledged index are pruned. -/
theorem pruneRetained_held {cap : Nat} (hixd : c.entry.Indexed) (h : c.entry.Holds id m) :
    (c.pruneRetained now cap).entry.Holds id m := by
  have hnot : id ∉ c.entry.index.acked := by
    intro hmem
    obtain ⟨t, ht, -, hu⟩ := h
    obtain ⟨t', ht', hack⟩ := (hixd.acked id).mp hmem
    obtain rfl := some.inj (ht.symm.trans ht')
    simp [unacked, hack] at hu
  refine foldlRecOn (motive := fun d : Ctx => d.entry.Holds id m) _ _ h fun d hd j hj => ?_
  refine dropAcked_held hd ?_
  rintro rfl
  refine hnot (Std.ExtTreeSet.mem_toList.mp ?_)
  rcases mem_append.mp hj with hxpd | hexc
  · exact takeWhile_subset _ (mem_of_mem_filter hxpd)
  · exact mem_of_mem_drop (mem_of_mem_take hexc)

theorem gentle_leave : Gentle c c.leave :=
  Gentle.trans (.foldl _ fun _ _ _ => gentle_letGo) (.foldl _ fun _ _ _ => gentle_forgetPeerCopy)

theorem follows_remove : Follows c (c.remove j) := by
  unfold remove
  split
  · exact .rfl
  · split
    · exact follows_removeEntry.trans gentle_letGo.toFollows
    · exact follows_removeEntry.trans gentle_forgetPeerCopy.toFollows

theorem remove_held (h : c.entry.Holds id m) (hne : j ≠ id) : (c.remove j).entry.Holds id m := by
  unfold remove
  split
  · exact h
  · split
    · exact gentle_letGo.held (h.remove hne)
    · exact gentle_forgetPeerCopy.held (h.remove hne)

/-! ### Acknowledgements -/

theorem gentle_countAcked : Gentle c c.countAcked :=
  ⟨⟨rfl, rfl, fun h => ⟨h.acked, h.acks, h.unacked, h.available, h.leased⟩, List.Subset.refl _⟩, fun h => h⟩

theorem follows_settleCopy {peers : Bool} : Follows c (c.settleCopy peers j) := by
  unfold settleCopy
  split
  · exact gentle_keepForPeers.toFollows
  · split
    · exact follows_removeEntry
    · exact .rfl

theorem messages_settleCopy {peers : Bool} (hne : j ≠ id) :
    (c.settleCopy peers j).entry.messages[id]? = c.entry.messages[id]? := by
  unfold settleCopy
  split
  · rfl
  · split
    · simp [messages_remove, hne]
    · rfl

theorem follows_acknowledge : Follows c (c.acknowledge j) := by
  unfold acknowledge
  split
  · exact .rfl
  split
  · exact follows_update
  · exact ((follows_update.trans gentle_countAcked.toFollows).trans
      gentle_letGo.toFollows).trans follows_settleCopy

/-- An acknowledgement leaves every other message exactly as it is. -/
theorem messages_acknowledge (hne : j ≠ id) :
    (c.acknowledge j).entry.messages[id]? = c.entry.messages[id]? := by
  have hset : (c.setState j .acked).entry.messages[id]? = c.entry.messages[id]? := by
    simp [setState, update, messages_update, hne]
  unfold acknowledge
  split
  · rfl
  split
  · exact hset
  · rw [messages_settleCopy hne, letGo_entry]
    exact hset

theorem acknowledge_held (h : c.entry.Holds id m) (hne : j ≠ id) :
    (c.acknowledge j).entry.Holds id m := by
  obtain ⟨t, ht, hm⟩ := h
  exact ⟨t, by rwa [messages_acknowledge hne], hm⟩

theorem follows_acknowledgeAll : Follows c (c.acknowledgeAll acks) := by
  refine .foldl _ fun d ack _ => ?_
  cases d.findLease ack with
  | none => exact .rfl
  | some _ => exact follows_acknowledge

/-- A message whose lease is not among the ack ids stays as it is. -/
theorem acknowledgeAll_held (hixd : c.entry.Indexed) (ht : c.entry.messages[id]? = some t)
    (hac : ∀ ack ∈ acks, t.state.ack ≠ some ack) :
    (c.acknowledgeAll acks).entry.messages[id]? = some t := by
  induction acks generalizing c with
  | nil => exact ht
  | cons ack acks ih =>
    obtain ⟨hoth, hac⟩ := forall_mem_cons.mp hac
    change (((c.findLease ack).elim c c.acknowledge).acknowledgeAll acks).entry.messages[id]? = _
    cases hles : c.findLease ack with
    | none => exact ih hixd ht hac
    | some j =>
      -- The lease found is another message's, since this one's has another ack id.
      have hne : j ≠ id := by
        rintro rfl
        obtain ⟨t', ht', hack⟩ := hixd.acks ack j hles
        obtain rfl := some.inj (ht.symm.trans ht')
        exact hoth hack
      exact ih (follows_acknowledge.indexed hixd) ((messages_acknowledge hne).trans ht) hac

/-! ### Seeks, drains and pushes -/

theorem follows_seekToTime {target : Nat} : Follows c (c.seekToTime target now) := by
  refine .foldl _ fun d x _ => ?_
  split
  · split
    · exact .rfl
    · exact gentle_revive.toFollows
  · exact follows_acknowledge

/-- A seek to a time keeps what was published from then on. -/
theorem seekToTime_held {target : Nat} (h : c.entry.Holds id m) (haft : target ≤ m.publishedAt) :
    (c.seekToTime target now).entry.Holds id m := by
  obtain ⟨t, ht, hm, -⟩ := (show c.entry.Holds id m from h)
  refine foldlRecOn (motive := fun d : Ctx => d.entry.Holds id m) _ _ h fun d hd x hx => ?_
  split
  · split
    · exact hd
    · exact gentle_revive.held hd
  · next hbef =>
    refine acknowledge_held hd ?_
    rintro rfl
    have hx := Std.ExtTreeMap.mem_toList_iff_getElem?_eq_some.mp hx
    obtain rfl := some.inj (ht.symm.trans hx)
    exact hbef (hm ▸ haft)

theorem follows_seekToSnapshot : Follows c (c.seekToSnapshot x now) := by
  refine .foldl _ fun d y _ => ?_
  split
  · exact gentle_revive.toFollows
  · exact follows_acknowledge

theorem messages_revive : (c.revive j now).entry.messages[id]? = if j = id then
    c.entry.messages[id]?.map fun t => { t with state := c.delivered now, attempts := 0 }
    else c.entry.messages[id]? := by
  unfold revive
  split
  · next hnn =>
    split
    · next heq => rw [← heq, hnn]; rfl
    · rfl
  · split <;> exact messages_update

theorem revive_holds : (c.revive id now).entry.Holds id m ↔
    ∃ t, c.entry.messages[id]? = some t ∧ t.message = m := by
  unfold SubscriptionEntry.Holds
  rw [messages_revive]
  cases c.entry.messages[id]? <;> simp [unacked, delivered_unacked]

theorem acknowledge_holds : ¬(c.acknowledge id).entry.Holds id m := by
  rintro ⟨t, ht, -, huna⟩
  have hset : (c.setState id .acked).entry.messages[id]? ≠ some t := by
    simp only [setState, update, messages_update, if_pos, ne_eq, map_eq_some_iff]
    rintro ⟨t, -, rfl⟩
    cases huna
  unfold acknowledge settleCopy at ht
  dsimp only at ht
  repeat' split at ht
  · next hnn => cases hnn.symm.trans ht
  · exact hset ht
  · change (letGo _ id).2.entry.messages[id]? = _ at ht
    exact hset (by rwa [letGo_entry] at ht)
  · simp [messages_remove] at ht
  · exact hset (by rwa [letGo_entry] at ht)

/-- **What a seek to a snapshot makes of a message.** -/
theorem seekToSnapshot_holds : (c.seekToSnapshot x now).entry.Holds id m ↔
    (∃ t, c.entry.messages[id]? = some t ∧ t.message = m) ∧
      (x.unacked.contains id ∨ x.created < m.published) := by
  unfold seekToSnapshot
  set op := fun (c : Ctx) (m : Nat × Tracked) =>
    if x.unacked.contains m.1 || x.created < m.2.message.published then c.revive m.1 now
    else c.acknowledge m.1 with hop
  have hoth : ∀ (l : List (Nat × Tracked)) (d : Ctx), (∀ y ∈ l, y.1 ≠ id) →
      (l.foldl op d).entry.messages[id]? = d.entry.messages[id]? := by
    intro l d hl
    refine foldlRecOn (motive := fun d' : Ctx => d'.entry.messages[id]? = _) _ _ rfl
      fun d' hd y hy => Eq.trans ?_ hd
    simp only [hop]
    split
    · rw [messages_revive, if_neg (hl y hy)]
    · exact messages_acknowledge (hl y hy)
  cases ht : c.entry.messages[id]? with
  | none =>
    have hky : ∀ y ∈ c.entry.messages.toList, y.1 ≠ id := by
      rintro y hy rfl
      cases ht.symm.trans (Std.ExtTreeMap.mem_toList_iff_getElem?_eq_some.mp hy)
    simp [SubscriptionEntry.Holds, hoth _ _ hky, ht]
  | some t =>
    -- The message's own turn decides; the turns before and after it are of other messages.
    obtain ⟨front, back, hspl⟩ :=
      append_of_mem (Std.ExtTreeMap.mem_toList_iff_getElem?_eq_some.mpr ht)
    have hky := Std.ExtTreeMap.distinct_keys_toList (t := c.entry.messages)
    rw [hspl] at hky ⊢
    obtain ⟨-, hbc, hfrt⟩ := pairwise_append.mp hky
    have hfrt := hoth front c fun y hy heq => hfrt y hy _ mem_cons_self (by simp [heq])
    have hbc := hoth back (op (front.foldl op c) (id, t)) fun y hy heq =>
      (pairwise_cons.mp hbc).1 y hy (by simp [heq])
    rw [foldl_append, foldl_cons]
    unfold SubscriptionEntry.Holds
    rw [hbc]
    change (op (front.foldl op c) (id, t)).entry.Holds id m ↔ _
    simp only [hop]
    split
    · next hwnt =>
      simp only [Bool.or_eq_true, decide_eq_true_eq] at hwnt
      rw [revive_holds, hfrt, ht]
      exact ⟨fun h => ⟨h, by obtain ⟨_, ⟨⟩, rfl⟩ := h; exact hwnt⟩, And.left⟩
    · next hunw =>
      simp only [Bool.or_eq_true, decide_eq_true_eq] at hunw
      refine iff_of_false acknowledge_holds ?_
      rintro ⟨⟨_, ⟨⟩, rfl⟩, hwnt⟩
      exact hunw hwnt

theorem follows_drain : Follows c c.drain := .foldl _ fun _ _ _ => follows_remove

theorem follows_finishPush : Follows c (c.finishPush j delivered now) := by
  unfold finishPush
  split
  · split
    · exact follows_acknowledge
    · exact gentle_setPush.toFollows
  · exact .rfl

/-- Only a delivered push of the message itself acknowledges it. -/
theorem finishPush_held (h : c.entry.Holds id m) (hoth : ¬(j = id ∧ delivered = true ∧
      ∃ at', c.entry.messages[id]?.map Tracked.state = some (.pushing at'))) :
    (c.finishPush j delivered now).entry.Holds id m := by
  unfold finishPush
  split
  · next at' hps =>
    split
    · next hdlv =>
      refine acknowledge_held h ?_
      rintro rfl
      exact hoth ⟨rfl, hdlv, at', hps⟩
    · exact gentle_setPush.held h
  · exact h

theorem reconfigure_indexed {x : Settings} (h : c.entry.Indexed) :
    (c.reconfigure x now).entry.Indexed := by
  have hset : (SubscriptionEntry.Indexed { c.entry with subscription := x }) :=
    ⟨h.acked, h.acks, h.unacked, h.available, h.leased⟩
  unfold reconfigure
  dsimp only
  split
  · exact (gentle_switchDelivery.trans gentle_reconsiderAll).indexed hset
  · exact gentle_switchDelivery.indexed hset

theorem reconfigure_held {x : Settings} (h : c.entry.Holds id m) :
    (c.reconfigure x now).entry.Holds id m := by
  have hset : SubscriptionEntry.Holds { c.entry with subscription := x } id m := h
  unfold reconfigure
  dsimp only
  split
  · exact (gentle_switchDelivery.trans gentle_reconsiderAll).held hset
  · exact gentle_switchDelivery.held hset

/-! ### Nacks -/

/-- The message is held, or among the dead letters of a subscription with a policy. -/
def Safe (c : Ctx) (id : Nat) (m : StoredMessage) : Prop :=
  c.entry.Holds id m ∨ c.entry.subscription.deadLetterPolicy.isSome ∧
    ∃ attempts, (c.name, m, attempts) ∈ c.effects.forwarded

theorem Safe.gentle (h : c.Safe id m) (hgen : Gentle c c') : c'.Safe id m := by
  rcases h with hhl | ⟨hpol, attempts, hlet⟩
  · exact .inl (hgen.held hhl)
  · exact .inr ⟨hgen.settings ▸ hpol, attempts, hgen.name ▸ hgen.forwarded hlet⟩

/-- The message put among the dead letters and counted. -/
def letter (c : Ctx) (t : Tracked) : Ctx :=
  { c with
    effects := { c.effects with
      forwarded := c.effects.forwarded ++ [(c.name, t.message, t.attempts)] }
    entry := { c.entry with deadLetteredTotal := c.entry.deadLetteredTotal + 1 } }

theorem gentle_letter : Gentle c (c.letter t) :=
  ⟨⟨rfl, rfl, fun h => ⟨h.acked, h.acks, h.unacked, h.available, h.leased⟩, subset_append_left _ _⟩, fun h => h⟩

/-- What a nack or an extension does. -/
theorem modifyDeadline_cases (c : Ctx) (j seconds : Nat) (now : Instant) :
    Gentle c (c.modifyDeadline j seconds now) ∨
    seconds = 0 ∧ c.entry.subscription.deadLetterPolicy.isSome ∧
      ∃ t, c.entry.messages[j]? = some t ∧
        c.modifyDeadline j seconds now = (c.letter t).remove j := by
  unfold modifyDeadline
  split
  · exact .inl .rfl
  next t ht =>
  split
  · split
    · exact .inl (gentle_setState (by simp))
    next hzr =>
    split
    · next hlast =>
      obtain ⟨policy, hpol, -⟩ := (any_eq_true _ _).mp hlast
      exact .inr ⟨by simpa using hzr, by simp [hpol], t, ht, rfl⟩
    · have hupd : Gentle c (c.update j fun t => { t with
          sequence := c.nextSequence, state := c.delivered now }) :=
        gentle_update (fun _ => rfl) fun _ _ => by
          simpa [unacked] using delivered_unacked
      exact .inl (hupd.trans (.of_entry rfl rfl rfl))
  · exact .inl .rfl

theorem follows_modifyDeadline : Follows c (c.modifyDeadline j seconds now) := by
  rcases modifyDeadline_cases c j seconds now with
    h | ⟨-, -, t, -, h⟩
  · exact h.toFollows
  · rw [h]
    exact gentle_letter.toFollows.trans follows_remove

theorem gentle_extend (h : seconds ≠ 0) : Gentle c (c.modifyDeadline j seconds now) := by
  rcases modifyDeadline_cases c j seconds now with
    hgen | ⟨hzr, -⟩
  · exact hgen
  · exact absurd hzr h

/-- **A nack keeps the message or makes it a dead letter.** -/
theorem Safe.modifyDeadline (h : c.Safe id m) : (c.modifyDeadline j seconds now).Safe id m := by
  rcases modifyDeadline_cases c j seconds now with
    hgen | ⟨-, hpol, t, ht, heq⟩
  · exact h.gentle hgen
  rw [heq]
  have hrem : Follows (c.letter t) ((c.letter t).remove j) := follows_remove
  rcases h.gentle (gentle_letter (t := t)) with hhl | ⟨-, attempts, hlet⟩
  · by_cases hj : j = id
    · subst hj
      obtain ⟨t', ht', rfl, -⟩ := hhl
      obtain rfl := some.inj (ht.symm.trans ht')
      refine .inr ⟨hrem.settings ▸ hpol, t.attempts, ?_⟩
      rw [hrem.name]
      exact hrem.forwarded (mem_append_right _ mem_cons_self)
    · exact .inl (remove_held hhl hj)
  · refine .inr ⟨hrem.settings ▸ hpol, attempts, ?_⟩
    rw [hrem.name]
    exact hrem.forwarded hlet

theorem follows_modifyDeadlines : Follows c (c.modifyDeadlines acks seconds now) := by
  refine .foldl _ fun d ack _ => ?_
  cases d.findLease ack with
  | none => exact .rfl
  | some _ => exact follows_modifyDeadline

theorem Safe.modifyDeadlines (h : c.Safe id m) :
    (c.modifyDeadlines acks seconds now).Safe id m := by
  refine foldlRecOn (motive := fun d : Ctx => d.Safe id m) _ _ h fun d hd ack _ => ?_
  cases d.findLease ack with
  | none => exact hd
  | some _ => exact hd.modifyDeadline

theorem gentle_extendAll (h : seconds ≠ 0) : Gentle c (c.modifyDeadlines acks seconds now) := by
  refine .foldl _ fun d ack _ => ?_
  cases d.findLease ack with
  | none => exact .rfl
  | some _ => exact gentle_extend h

theorem follows_expire : Follows c (c.expire now) := .foldl _ fun _ _ _ => follows_modifyDeadline

theorem Safe.expire (h : c.Safe id m) : (c.expire now).Safe id m :=
  foldlRecOn (motive := fun d : Ctx => d.Safe id m) _ _ h fun _ hd _ _ => hd.modifyDeadline

end Ctx

end Firenook.Pubsub
