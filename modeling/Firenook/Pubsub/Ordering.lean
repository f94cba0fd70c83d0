import Firenook.Pubsub.Delivery

/-!
# Pubsub — ordered delivery

A pull takes the messages of an ordering key in the order of the queue, and only while none of them is
leased. A message enters the queue at its own id, so in every state a run reaches the messages of a
key that were never nacked and never lost a lease come in publish order (**`ordered_delivery`**). A
nack moves a message behind the later ones of its key, and the next pull then delivers one of those
first (`nack_reorders`).
-/

namespace Firenook.Pubsub

open List Option

/-- What a pull delivers of an ordered subscription: a message comes after every earlier one of its
key that is unacknowledged, where these are as `standing` says. -/
def Ctx.InOrder (c : Ctx) (maxMessages : Nat) (standing : Nat → Tracked → Prop) : Prop :=
  c.entry.subscription.enableMessageOrdering = true →
    ∀ (m : Nat) (t : Tracked), c.entry.messages[m]? = some t → t.key ≠ [] →
      (∀ (i : Nat) (u : Tracked), c.entry.messages[i]? = some u → u.key = t.key →
        u.unacked = true → standing i u) →
      m ∈ c.chosen maxMessages →
      ∃ earlier later, c.chosen maxMessages = earlier ++ m :: later ∧
        ∀ (m' : Nat) (t' : Tracked), c.entry.messages[m']? = some t' → t'.key = t.key →
          t'.unacked = true → m' < m → t'.state = .available ∧ m' ∈ earlier

/-- **A key is taken in the order of the queue**, which is that of the ids where no place changed. -/
theorem Ctx.inOrder {c : Ctx} {maxMessages : Nat} (hi : c.entry.Indexed) :
    c.InOrder maxMessages fun i u => u.sequence = i ∧ ∀ at', u.state ≠ .pushing at' := by
  intro hor m t ht hkey hst hm
  unfold chosen at hm ⊢
  dsimp only at hm ⊢
  set free := fun p : Position => !(c.entry.subscription.enableMessageOrdering &&
    c.entry.messages[p.id]?.any fun t => !t.message.message.orderingKey.isEmpty &&
      c.entry.index.leasedKeys.contains t.message.message.orderingKey) with hfr
  set queue := c.entry.index.available.toList.filter free with hque
  obtain ⟨p, hp, rfl⟩ := mem_map.mp hm
  obtain ⟨before, behind, hspl⟩ := append_of_mem hp
  obtain ⟨hmem, hpf⟩ := mem_filter.mp (mem_of_mem_take hp)
  obtain ⟨u, hu, hav, hrn⟩ := (hi.available p).mp (Std.ExtTreeSet.mem_toList.mp hmem)
  obtain rfl := some.inj (ht.symm.trans hu)
  have hunl : c.entry.index.leasedKeys.contains t.key = false := by
    have hne : t.message.message.orderingKey ≠ [] := hkey
    simpa [hfr, hor, ht, hne, Tracked.key] using hpf
  refine ⟨before.map Position.id, behind.map Position.id, by simp [hspl], ?_⟩
  intro m' t' ht' hsm huna hlt
  obtain ⟨hfst, hps⟩ := hst m' t' ht' hsm huna
  have hown := (hst p.id t ht rfl (by simp [Tracked.unacked, hav])).1
  have hste : t'.state = .available := by
    cases hste : t'.state with
    | available => rfl
    | leased ack deadline =>
      have hls := hi.leased m' t' ht' (by simp [hste, MessageState.ack]) (hsm ▸ hkey)
      rw [hsm, Index.leased, Std.ExtTreeMap.getElem?_eq_none_of_contains_eq_false hunl] at hls
      cases Std.ExtTreeSet.not_mem_empty hls
    | pushing at' => exact absurd hste (hps at')
    | acked => simp [Tracked.unacked, hste] at huna
  -- The message waits in the queue, ahead of the one that is taken.
  have hwts : (⟨t'.sequence, m'⟩) ∈ queue := by
    refine mem_filter.mpr ⟨Std.ExtTreeSet.mem_toList.mpr ?_, ?_⟩
    · exact (hi.available _).mpr ⟨t', ht', hste, rfl⟩
    · rw [← hsm, Tracked.key] at hunl
      simp [hfr, ht', hunl]
  have hsrt : queue.Pairwise fun p q => compare p q = .lt :=
    Std.ExtTreeSet.ordered_toList.filter _
  have hque : queue = before ++ p :: (behind ++ queue.drop maxMessages) := by
    nth_rewrite 1 [← take_append_drop maxMessages queue]
    rw [hspl, append_assoc, cons_append]
  rw [hque] at hwts hsrt
  refine ⟨hste, ?_⟩
  rcases mem_append.mp hwts with hbef | hbeh
  · exact mem_map.mpr ⟨_, hbef, rfl⟩
  have hahd : compare (⟨t'.sequence, m'⟩ : Position) p = .lt := by
    change (compare t'.sequence p.rank).then _ = _
    rw [Nat.compare_eq_lt.mpr (by omega)]
    rfl
  obtain ⟨hlst, -⟩ := pairwise_cons.mp (pairwise_append.mp hsrt).2.1
  rcases mem_cons.mp hbeh with rfl | hlat
  · cases Std.ReflCmp.compare_self.symm.trans hahd
  · cases (Std.OrientedCmp.gt_of_lt (hlst _ hlat)).symm.trans hahd

/-! ### Runs -/

section
variable {rfc3339Millis : Nat → Text} {s : State}

theorem indexed_after (hi : s.Indexed) (calls : List Call) :
    (after rfc3339Millis s calls).Indexed := by
  induction calls generalizing s with
  | nil => exact hi
  | cons call calls ih => exact ih (indexed_step hi call)

end

theorem indexed_fresh (retainedAcked : Nat) (started : Instant) :
    (fresh retainedAcked started).Indexed := by
  intro name e he
  simp [fresh] at he

/-- A pull of the subscription, if there is one, delivers in order. -/
def State.InOrder (s : State) (name : Text) (maxMessages : Nat)
    (standing : Nat → Tracked → Prop) : Prop :=
  ∀ e, s.subscriptions[name]? = some e → (s.ctx name e).InOrder maxMessages standing

/-- **Ordered subscriptions deliver each key in publish order**, while no message of the key that is
still unacknowledged was nacked, lost its lease or was handed to a push endpoint. -/
theorem ordered_delivery (rfc3339Millis : Nat → Text) (retainedAcked : Nat) (started : Instant)
    (calls : List Call) (name : Text) (maxMessages : Nat) :
    (after rfc3339Millis (fresh retainedAcked started) calls).InOrder name maxMessages
      fun i u => u.sequence = i ∧ ∀ at', u.state ≠ .pushing at' :=
  fun e he => Ctx.inOrder (indexed_after (indexed_fresh retainedAcked started) calls name e he)

/-! ### A nack -/

def sampleOrdered : Settings where
  name := sampleSubscription
  topic := sampleTopic
  enableMessageOrdering := true

/-- Two messages of one key on an ordered subscription, the first leased and nacked. -/
def sampleReordered : State := after (fun _ => []) (fresh 100000 0)
  [⟨.createTopic sampleTopic none, 0, 0⟩,
   ⟨.createSubscription sampleOrdered (fun _ => true) [], 0, 0⟩,
   ⟨.publish sampleTopic [⟨ascii "a", ∅, ascii "k"⟩, ⟨ascii "b", ∅, ascii "k"⟩], 1, 1⟩,
   samplePull, sampleNack 1]

/-- **After a nack the later message is delivered first**, and the nacked one is left waiting. -/
theorem nack_reorders : ¬sampleReordered.InOrder sampleSubscription 1 fun _ _ => True := by
  intro h
  have hfac : (sampleReordered.subscriptions[sampleSubscription]?.any fun e =>
      e.subscription.enableMessageOrdering &&
      (e.messages[1]?.any fun u => u.key = ascii "k" && u.unacked) &&
      (e.messages[2]?.any fun t => t.key = ascii "k") &&
      (sampleReordered.ctx sampleSubscription e).chosen 1 = [2]) = true := by decide +kernel
  obtain ⟨e, he, hfac⟩ := (Option.any_eq_true _ _).mp hfac
  simp only [Bool.and_eq_true, Option.any_eq_true, decide_eq_true_eq] at hfac
  obtain ⟨⟨⟨hor, u, hu, huk, huna⟩, t, ht, htk⟩, hchs⟩ := hfac
  obtain ⟨earlier, later, heq, hall⟩ := h e he hor 2 t ht (by rw [htk]; decide)
    (fun _ _ _ _ _ => trivial) (by rw [hchs]; exact mem_cons_self)
  obtain ⟨-, hmem⟩ := hall 1 u hu (huk.trans htk.symm) huna (by decide)
  rw [hchs] at heq
  cases earlier with
  | nil => cases hmem
  | cons a earlier => simp at heq

end Firenook.Pubsub
