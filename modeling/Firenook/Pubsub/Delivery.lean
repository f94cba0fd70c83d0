import Firenook.Pubsub.Transitions

/-!
# Pubsub — Delivery

**No delivered message is lost** (`delivered_kept`): along every run, a subscription that holds a
message unacknowledged goes on holding it, unless it is deleted, the broker is reset, the message is
acknowledged there, or its copy is published to the dead-letter topic. The condition is on the state
each request finds: when a lease ends, the dead-letter topic of its subscription still exists, and the
console acknowledges nothing by hand. `dead_letter_lost` is a run without the first: the topic is
deleted after the policy was validated, and the last nack then lets go of the message for nothing.
-/

namespace Firenook.Pubsub

open Option List State Ctx

variable {excuse : Prop} {target : Text}

namespace State
variable {s s' s'' : State} {name other : Text} {id gen : Nat} {m : StoredMessage} {c : Ctx}
  {e : SubscriptionEntry} {now : Instant} {wall : Nat} {rfc3339Millis : Nat → Text}

/-- The subscription holds the message unacknowledged. -/
def Holds (s : State) (name : Text) (id : Nat) (m : StoredMessage) : Prop :=
  ∃ e : SubscriptionEntry, s.subscriptions[name]? = some e ∧ e.Holds id m

def Indexed (s : State) : Prop :=
  ∀ (name : Text) (e : SubscriptionEntry), s.subscriptions[name]? = some e → e.Indexed

def policy (s : State) (name : Text) : Option DeadLetterPolicy :=
  s.subscriptions[name]?.bind (·.subscription.deadLetterPolicy)

/-! ### What requests cause elsewhere -/

/-- What the transitions of any subscription leave of the state. -/
structure Follows (s s' : State) : Prop where
  topics : s'.topics = s.topics
  policies : ∀ name, s'.policy name = s.policy name
  indexed : s.Indexed → s'.Indexed
  published : s.published <+: s'.published

/-- And no subscription lets go of a message. -/
structure Gentle (s s' : State) : Prop extends Follows s s' where
  held : ∀ {name id m}, s.Holds name id m → s'.Holds name id m

theorem Follows.rfl : Follows s s := ⟨Eq.refl _, fun _ => Eq.refl _, fun h => h, prefix_refl _⟩

theorem Follows.trans (h : Follows s s') (h' : Follows s' s'') : Follows s s'' :=
  ⟨h'.topics.trans h.topics, fun name => (h'.policies name).trans (h.policies name),
    fun hi => h'.indexed (h.indexed hi), h.published.trans h'.published⟩

theorem Gentle.rfl : Gentle s s := ⟨Follows.rfl, fun h => h⟩

theorem Gentle.trans (h : Gentle s s') (h' : Gentle s' s'') : Gentle s s'' :=
  ⟨h.toFollows.trans h'.toFollows, fun hm => h'.held (h.held hm)⟩

theorem Gentle.foldl {α : Type} {op : State → α → State} (l : List α)
    (h : ∀ s, ∀ a ∈ l, Gentle s (op s a)) : Gentle s (l.foldl op s) :=
  foldlRecOn (motive := fun d => Gentle s d) l op Gentle.rfl fun d hd a ha => hd.trans (h d a ha)

/-- Bookkeeping outside the subscriptions. -/
theorem Gentle.of_subscriptions (hsb : s'.subscriptions = s.subscriptions)
    (htp : s'.topics = s.topics) (hpub : s.published <+: s'.published) : Gentle s s' where
  topics := htp
  policies name := by simp [policy, hsb]
  indexed h := by simpa only [Indexed, hsb] using h
  published := hpub
  held h := by simpa only [Holds, hsb] using h

theorem settle_subscriptions : (s.settle name gen c).subscriptions[other]? =
    if name = other then some c.entry else s.subscriptions[other]? := by
  simp [settle, Std.ExtTreeMap.getElem?_insert]

theorem settle_indexed (h : s.Indexed) (hc : c.entry.Indexed) : (s.settle name gen c).Indexed := by
  intro other e he
  rw [settle_subscriptions] at he
  split at he
  · obtain rfl := some.inj he
    exact hc
  · exact h other e he

theorem settle_held_other (h : s.Holds other id m) (hne : name ≠ other) :
    (s.settle name gen c).Holds other id m := by
  obtain ⟨e, he, hm⟩ := h
  exact ⟨e, by rwa [settle_subscriptions, if_neg hne], hm⟩

theorem settle_held_self (h : c.entry.Holds id m) : (s.settle name gen c).Holds name id m :=
  ⟨c.entry, by rw [settle_subscriptions, if_pos rfl], h⟩

theorem settle_follows (he : s.subscriptions[name]? = some e) (h : Ctx.Follows (s.ctx name e) c) :
    Follows s (s.settle name gen c) where
  topics := rfl
  policies other := by
    simp only [policy, settle_subscriptions]
    split
    · next heq =>
      subst heq
      rw [he]
      exact congrArg Settings.deadLetterPolicy h.settings
    · rfl
  indexed hi := settle_indexed hi (h.indexed (hi name e he))
  published := prefix_refl _

theorem settle_gentle (he : s.subscriptions[name]? = some e) (h : Ctx.Gentle (s.ctx name e) c) :
    Gentle s (s.settle name gen c) := by
  refine ⟨settle_follows he h.toFollows, ?_⟩
  intro other id m hm
  by_cases heq : name = other
  · subst heq
    obtain ⟨e', he', hm⟩ := hm
    obtain rfl := some.inj (he.symm.trans he')
    exact settle_held_self (h.held hm)
  · exact settle_held_other hm heq

theorem gentle_runQuietly {work : Ctx → Ctx} (h : ∀ c, Ctx.Gentle c (work c)) :
    Gentle s (s.runQuietly name work) := by
  unfold runQuietly run
  cases he : s.subscriptions[name]? with
  | none => exact .rfl
  | some e => exact settle_gentle he (h _)

theorem gentle_deliver {topic : Text} {messages : List StoredMessage} :
    Gentle s (s.deliver topic messages now) := by
  unfold deliver
  split
  · exact .rfl
  refine Gentle.trans (.foldl _ fun d member _ => gentle_runQuietly fun c => ?_)
    (.of_subscriptions rfl rfl (prefix_append _ _))
  split
  · exact .rfl
  · exact .foldl _ fun _ _ _ => gentle_track

theorem gentle_release {released : Nat × List Nat} : Gentle s (s.release released) := by
  refine .foldl _ fun d slot _ => ?_
  cases d.slots[slot]? with
  | none => exact .rfl
  | some _ => exact gentle_runQuietly fun _ => gentle_reconsider

theorem gentle_forwardDeadLetter {letter : Text × StoredMessage × Nat} :
    Gentle s (s.forwardDeadLetter rfc3339Millis now wall letter) := by
  unfold forwardDeadLetter
  split
  · exact .rfl
  split
  · exact .rfl
  · have hnx : Gentle s { s with nextMessageId := s.nextMessageId + 1 } :=
      .of_subscriptions rfl rfl (prefix_refl _)
    exact hnx.trans gentle_deliver

theorem gentle_apply {effects : Effects} : Gentle s (s.apply rfc3339Millis now wall effects) :=
  Gentle.trans (.foldl _ fun _ _ _ => gentle_release)
    (.foldl _ fun _ _ _ => gentle_forwardDeadLetter)

/-! ### Dead letters -/

/-- A copy of the message with the dead-letter attributes was published, between the two states, to
the topic the subscription's policy names. -/
def Copied (rfc3339Millis : Nat → Text) (now : Instant) (wall : Nat) (s s' : State) (name : Text)
    (m : StoredMessage) : Prop :=
  ∃ policy attempts copyId new, s.policy name = some policy ∧ s'.published = s.published ++ new ∧
    (policy.deadLetterTopic, deadLetterCopy rfc3339Millis name m attempts copyId now wall) ∈ new

/-- The topic that the subscription's policy names exists. -/
def TopicStands (s : State) (name : Text) : Prop :=
  ∀ policy, s.policy name = some policy → policy.deadLetterTopic ∈ s.topics

theorem Follows.topicStands (h : Follows s s') (hstd : s.TopicStands name) :
    s'.TopicStands name := by
  intro policy hpol
  rw [h.topics]
  exact hstd policy (h.policies name ▸ hpol)

theorem Copied.after (h : Copied rfc3339Millis now wall s' s'' name m) (hflw : Follows s s') :
    Copied rfc3339Millis now wall s s'' name m := by
  obtain ⟨policy, attempts, copyId, new, hpol, hnew, hmem⟩ := h
  obtain ⟨earlier, herl⟩ := hflw.published
  exact ⟨policy, attempts, copyId, earlier ++ new, hflw.policies name ▸ hpol,
    by rw [hnew, ← herl, append_assoc], mem_append_right _ hmem⟩

theorem Copied.before (h : Copied rfc3339Millis now wall s s' name m) (hflw : Follows s' s'') :
    Copied rfc3339Millis now wall s s'' name m := by
  obtain ⟨policy, attempts, copyId, new, hpol, hnew, hmem⟩ := h
  obtain ⟨later, hlat⟩ := hflw.published
  exact ⟨policy, attempts, copyId, new ++ later, hpol,
    by rw [← hlat, hnew, append_assoc], mem_append_left _ hmem⟩

theorem published_deliver {topic : Text} {messages : List StoredMessage} (h : topic ∈ s.topics) :
    (s.deliver topic messages now).published = s.published ++ messages.map fun m => (topic, m) := by
  obtain ⟨t, ht⟩ := isSome_iff_exists.mp (Std.ExtTreeMap.mem_iff_isSome_getElem?.mp h)
  have hmbs : ∀ (members : List Text) (s : State), (members.foldl (fun s name => s.runQuietly name
      fun c => if c.entry.topicDeleted then c else messages.foldl (fun c m => c.track now m) c)
        s).published = s.published := by
    intro members s
    refine foldlRecOn (motive := fun d : State => d.published = s.published) _ _ rfl
      fun d hd name _ => Eq.trans ?_ hd
    unfold runQuietly run
    cases d.subscriptions[name]? <;> rfl
  simp [deliver, ht, hmbs]

theorem forwardDeadLetter_copied {attempts : Nat} {policy : DeadLetterPolicy}
    (hpol : s.policy name = some policy) (htop : policy.deadLetterTopic ∈ s.topics) :
    Copied rfc3339Millis now wall s
      (s.forwardDeadLetter rfc3339Millis now wall (name, m, attempts)) name m := by
  refine ⟨policy, attempts, s.nextMessageId, [(policy.deadLetterTopic, deadLetterCopy rfc3339Millis
    name m attempts s.nextMessageId now wall)], hpol, ?_, mem_cons_self⟩
  have hcon : s.topics.contains policy.deadLetterTopic = true := by simpa using htop
  have hpol : (s.subscriptions[name]?.bind fun e => e.subscription.deadLetterPolicy) =
    some policy := hpol
  simp only [forwardDeadLetter, hpol, hcon, Bool.not_true, Bool.false_eq_true, if_false]
  exact published_deliver (s := { s with nextMessageId := s.nextMessageId + 1 }) htop

/-- **A dead letter whose topic exists is published.** -/
theorem apply_copied {effects : Effects} {attempts : Nat}
    (hlet : (name, m, attempts) ∈ effects.forwarded) {policy : DeadLetterPolicy}
    (hpol : s.policy name = some policy) (hstd : s.TopicStands name) :
    Copied rfc3339Millis now wall s (s.apply rfc3339Millis now wall effects) name m := by
  obtain ⟨earlier, later, hspl⟩ := append_of_mem hlet
  have hfwd : ∀ (letters : List (Text × StoredMessage × Nat)) (s : State), Gentle s
      (letters.foldl (fun s letter => s.forwardDeadLetter rfc3339Millis now wall letter) s) :=
    fun _ _ => .foldl _ fun _ _ _ => gentle_forwardDeadLetter
  have hrl : Gentle s (effects.released.foldl release s) := .foldl _ fun _ _ _ => gentle_release
  have hbef := (hrl.trans (hfwd earlier _)).toFollows
  have htop := hbef.topicStands hstd policy (hbef.policies name ▸ hpol)
  unfold apply
  rw [hspl, foldl_append]
  exact ((forwardDeadLetter_copied (hbef.policies name ▸ hpol) htop).after hbef).before
    (hfwd later _).toFollows

/-! ### The transitions of one subscription, settled and applied -/

section Within
variable {target : Text} {work : Ctx → Ctx} {excuse : Prop}

theorem within_none (h : s.subscriptions[target]? = none) :
    s.within rfc3339Millis target now wall work = s := by
  simp [within, withSubscription, run, h]

theorem within_some (h : s.subscriptions[target]? = some e) :
    s.within rfc3339Millis target now wall work =
      (s.settle target e.topicGeneration (work (s.ctx target e))).apply rfc3339Millis now wall
        (work (s.ctx target e)).effects := by
  simp [within, withSubscription, run, h]

/-- Transitions with a result, for their effect on the state. -/
theorem withSubscription_within {R : Type} {work : Ctx → R × Ctx} :
    s.withSubscription rfc3339Millis target now wall work = none ∨
    ∃ r, s.withSubscription rfc3339Millis target now wall work =
      some (r, s.within rfc3339Millis target now wall fun c => (work c).2) := by
  cases h : s.subscriptions[target]? with
  | none => exact .inl (by simp [withSubscription, run, h])
  | some e => exact .inr ⟨(work (s.ctx target e)).1, by simp [within, withSubscription, run, h]⟩

theorem within_follows (h : ∀ c, Ctx.Follows c (work c)) :
    Follows s (s.within rfc3339Millis target now wall work) := by
  cases he : s.subscriptions[target]? with
  | none => rw [within_none he]; exact .rfl
  | some e =>
    rw [within_some he]
    exact (settle_follows he (h _)).trans gentle_apply.toFollows

theorem gentle_within (h : ∀ c, Ctx.Gentle c (work c)) :
    Gentle s (s.within rfc3339Millis target now wall work) := by
  cases he : s.subscriptions[target]? with
  | none => rw [within_none he]; exact .rfl
  | some e =>
    rw [within_some he]
    exact (settle_gentle he (h _)).trans gentle_apply

/-- What a request leaves: right indexes, and a held message still held unless there is an excuse. -/
structure Kept (excuse : Prop) (name : Text) (id : Nat) (m : StoredMessage) (s s' : State) : Prop where
  indexed : s'.Indexed
  held : s.Holds name id m → s'.Holds name id m ∨ excuse

theorem Kept.rfl (hi : s.Indexed) : Kept excuse name id m s s := ⟨hi, .inl⟩

theorem Gentle.kept (h : Gentle s s') (hi : s.Indexed) : Kept excuse name id m s s' :=
  ⟨h.indexed hi, fun hm => .inl (h.held hm)⟩

theorem Kept.gentle (h : Kept excuse name id m s s') (hgen : Gentle s' s'') :
    Kept excuse name id m s s'' :=
  ⟨hgen.indexed h.indexed, fun hm => (h.held hm).imp_left hgen.held⟩

theorem Kept.imp {excuse' : Prop} (h : Kept excuse name id m s s') (himp : excuse → excuse') :
    Kept excuse' name id m s s' :=
  ⟨h.indexed, fun hm => (h.held hm).imp_right himp⟩

theorem Kept.of_subscriptions (hi : s.Indexed) (h : s'.subscriptions = s.subscriptions) :
    Kept excuse name id m s s' where
  indexed := by simpa only [Indexed, h] using hi
  held hm := .inl (by simpa only [Holds, h] using hm)

/-- A request on one subscription keeps the message if its transitions do. -/
theorem Kept.within (hi : s.Indexed) (hixd : ∀ c, c.entry.Indexed → (work c).entry.Indexed)
    (hhl : ∀ e, s.subscriptions[name]? = some e → target = name → e.Holds id m →
      (work (s.ctx name e)).entry.Holds id m ∨ excuse) :
    Kept excuse name id m s (s.within rfc3339Millis target now wall work) := by
  cases he : s.subscriptions[target]? with
  | none => rw [within_none he]; exact .rfl hi
  | some e =>
    rw [within_some he]
    suffices h : Kept excuse name id m s
        (s.settle target e.topicGeneration (work (s.ctx target e))) from h.gentle gentle_apply
    refine ⟨settle_indexed hi (hixd _ (hi _ _ he)), fun hm => ?_⟩
    by_cases heq : target = name
    · subst heq
      obtain ⟨e', he', hm⟩ := hm
      obtain rfl := some.inj (he.symm.trans he')
      exact (hhl e he (Eq.refl _) hm).imp_left settle_held_self
    · exact .inl (settle_held_other hm heq)

/-- A message is still held, or a dead letter was published. -/
abbrev Survives (rfc3339Millis : Nat → Text) (now : Instant) (wall : Nat) (name : Text) (id : Nat)
    (m : StoredMessage) (s s' : State) : Prop :=
  Kept (Copied rfc3339Millis now wall s s' name m) name id m s s'

/-- Transitions that keep a message or make it a dead letter, with the topic there. -/
theorem Kept.within_safe (hi : s.Indexed) (hflw : ∀ c, Ctx.Follows c (work c))
    (hsf : ∀ c, c.Safe id m → (work c).Safe id m) (hstd : target = name → s.TopicStands name) :
    Survives rfc3339Millis now wall name id m s (s.within rfc3339Millis target now wall work) := by
  refine .within hi (fun c => (hflw c).indexed) fun e he heq hm => ?_
  subst heq
  have hst : Follows s (s.settle target e.topicGeneration (work (s.ctx target e))) :=
    settle_follows he (hflw _)
  rcases hsf (s.ctx target e) (.inl hm) with hhl | ⟨hpol, attempts, hlet⟩
  · exact .inl hhl
  right
  obtain ⟨policy, hpol⟩ := isSome_iff_exists.mp hpol
  rw [(hflw _).name] at hlet
  rw [within_some he]
  have hsm : (s.settle target e.topicGeneration (work (s.ctx target e))).policy target =
      some policy := by simp [State.policy, settle_subscriptions, hpol]
  exact (apply_copied hlet hsm (hst.topicStands (hstd (Eq.refl _)))).after hst

end Within

/-! ### The tick -/

/-- What a tick does to one subscription. -/
def tickWork (s : State) (name : Text) (now : Instant) (c : Ctx) : Ctx :=
  ((c.expire now).duePushes (s.inFlight[name]?.getD ∅) now).foldl
    (fun c id => c.handOutPush id (now + 90 * second)) (c.expire now)

theorem gentle_handOut {pushes : List Nat} {hold : Instant} :
    Ctx.Gentle c (pushes.foldl (fun c id => c.handOutPush id hold) c) :=
  .foldl _ fun _ _ _ => gentle_setPush

theorem tickOne_within : Gentle (s.within rfc3339Millis name now wall (s.tickWork name now))
    (s.tickOne rfc3339Millis now wall name) := by
  unfold tickOne
  cases h : s.subscriptions[name]? with
  | none => simpa [within_none h, withSubscription, run, h] using .rfl
  | some e =>
    simp only [withSubscription, run, h, map_some, elim_some, within_some h]
    exact .of_subscriptions rfl rfl (prefix_refl _)

theorem tickOne_follows : Follows s (s.tickOne rfc3339Millis now wall name) :=
  (within_follows fun _ => follows_expire.trans gentle_handOut.toFollows).trans
    tickOne_within.toFollows

theorem tickOne_kept (hi : s.Indexed) (hstd : s.TopicStands name) :
    Survives rfc3339Millis now wall name id m s (s.tickOne rfc3339Millis now wall other) := by
  have hwi : Survives rfc3339Millis now wall name id m s
      (s.within rfc3339Millis other now wall (s.tickWork other now)) :=
    .within_safe hi (fun _ => follows_expire.trans gentle_handOut.toFollows)
      (fun _ h => h.expire.gentle gentle_handOut) fun _ => hstd
  exact (hwi.gentle tickOne_within).imp fun h => h.before tickOne_within.toFollows

theorem prune_follows : Follows s (s.prune rfc3339Millis now wall) :=
  foldlRecOn (motive := fun d => Follows s d) _ _ .rfl
    fun _ hd _ _ => hd.trans (within_follows fun _ => follows_pruneRetained)

theorem prune_held (hi : s.Indexed) (h : s.Holds name id m) :
    (s.prune rfc3339Millis now wall).Holds name id m := by
  refine (foldlRecOn (motive := fun d : State => d.Indexed ∧ d.Holds name id m) _ _ ⟨hi, h⟩
    fun d hd target _ => ?_).2
  have hkp : Kept False name id m d
      (d.within rfc3339Millis target now wall (·.pruneRetained now d.retainedAcked)) := .within hd.1
    (fun _ => follows_pruneRetained.indexed) fun e he _ hm =>
      .inl (pruneRetained_held (hd.1 name e he) hm)
  exact ⟨hkp.indexed, (hkp.held hd.2).resolve_right fun h => h⟩

theorem tick_follows : Follows s (s.tick rfc3339Millis now wall) := by
  have hlp : ∀ names : List Text, Follows s
      (names.foldl (fun s name => s.tickOne rfc3339Millis now wall name) s) := fun names =>
    foldlRecOn (motive := fun d => Follows s d) _ _ .rfl fun _ hd _ _ => hd.trans tickOne_follows
  unfold tick
  dsimp only
  split
  · have hsl : ∀ d : State, Gentle d { d with nextSlowTick := now + second } := fun _ =>
      .of_subscriptions rfl rfl (prefix_refl _)
    exact ((hlp _).trans (hsl _).toFollows).trans prune_follows
  · exact hlp _

theorem tick_kept (hi : s.Indexed) (hstd : s.TopicStands name) :
    Survives rfc3339Millis now wall name id m s (s.tick rfc3339Millis now wall) := by
  set names := (s.subscriptions.toList.filter fun e => due now e.2).map Prod.fst with hnms
  set ticked := names.foldl (fun s name => s.tickOne rfc3339Millis now wall name) s with htik
  have hlp : Follows s ticked ∧ (s.Holds name id m → ticked.Holds name id m ∨
      Copied rfc3339Millis now wall s ticked name m) := by
    refine foldlRecOn (motive := fun d : State => Follows s d ∧ (s.Holds name id m →
      d.Holds name id m ∨ Copied rfc3339Millis now wall s d name m)) _ _ ⟨.rfl, .inl⟩
      fun d hd target _ => ⟨hd.1.trans tickOne_follows, fun hm => ?_⟩
    rcases hd.2 hm with hhl | hcop
    · exact ((tickOne_kept (hd.1.indexed hi) (hd.1.topicStands hstd)).held hhl).imp_right
        fun h => h.after hd.1
    · exact .inr (hcop.before tickOne_follows)
  unfold tick
  dsimp only
  split
  · have hsl : Gentle ticked { ticked with nextSlowTick := now + second } :=
      .of_subscriptions rfl rfl (prefix_refl _)
    have hixd := hsl.indexed (hlp.1.indexed hi)
    refine ⟨prune_follows.indexed hixd, fun hm => ?_⟩
    rcases hlp.2 hm with hhl | hcop
    · exact .inl (prune_held hixd (hsl.held hhl))
    · exact .inr ((hcop.before hsl.toFollows).before prune_follows)
  · exact ⟨hlp.1.indexed hi, hlp.2⟩

/-! ### Requests -/

section Checked
variable {P : State → Prop} {collection : Text}

/-- A request whose name is refused leaves the state as it is. -/
theorem named_state {request : Reply} (hs : P s) (h : P request.state) :
    P (s.named collection name request).state := by
  unfold named
  split
  · exact h
  · exact hs

theorem known_state {request : SubscriptionEntry → Reply} (hs : P s)
    (h : ∀ e, s.subscriptions[name]? = some e → P (request e).state) :
    P (s.known name request).state := by
  refine named_state hs ?_
  split
  · exact hs
  · next e he => exact h e he

end Checked

theorem forgetGeneration_subscriptions :
    (forgetGenerationIfUnused s gen).subscriptions = s.subscriptions := by
  unfold forgetGenerationIfUnused
  split <;> rfl

theorem gentle_forgetGeneration : Gentle s (forgetGenerationIfUnused s gen) := by
  unfold forgetGenerationIfUnused
  split
  · exact .of_subscriptions rfl rfl (prefix_refl _)
  · exact .rfl

theorem deleteTopic_kept {topic : Text} (hi : s.Indexed) :
    Kept excuse name id m s (s.deleteTopic topic).state := by
  refine named_state (.rfl hi) ?_
  split
  · exact .rfl hi
  next t _ =>
  have hdet : ∀ e : SubscriptionEntry, (e.Indexed → (detach t.generation e).Indexed) ∧
      (e.Holds id m → (detach t.generation e).Holds id m) := by
    intro e
    unfold detach
    split
    · exact ⟨fun h => ⟨h.acked, h.acks, h.unacked, h.available, h.leased⟩, fun h => h⟩
    · exact ⟨fun h => h, fun h => h⟩
  constructor
  · intro other e he
    simp only [Reply.ok, forgetGeneration_subscriptions, Std.ExtTreeMap.getElem?_map,
      map_eq_some_iff] at he
    obtain ⟨e, he, rfl⟩ := he
    exact (hdet e).1 (hi other e he)
  · rintro ⟨e, he, hm⟩
    exact .inl ⟨detach t.generation e, by simp [Reply.ok, forgetGeneration_subscriptions, he],
      (hdet e).2 hm⟩

theorem validatedSubscription_name {x x' : Settings} (h : s.validatedSubscription x = .ok x') :
    x'.name = x.name := by
  unfold validatedSubscription at h
  split at h
  · cases h
  split at h
  · cases h
  split at h
  · obtain rfl := Except.ok.inj h
    rfl
  next policy _ =>
  cases hpol : s.validatedPolicy policy with
  | error _ => rw [hpol] at h; cases h
  | ok _ =>
    rw [hpol] at h
    obtain rfl := Except.ok.inj h
    rfl

theorem addSubscription_kept {x : Settings} {filter : Message → Bool} (hi : s.Indexed)
    (hnew : s.subscriptions[x.name]? = none) :
    Kept excuse name id m s (s.addSubscription x gen filter) := by
  have hget : ∀ other, (s.addSubscription x gen filter).subscriptions[other]? =
      if x.name = other then
        some (newSubscription x gen (s.freeSlot (s.slots.size + 2) s.nextSlot) filter)
      else s.subscriptions[other]? := by
    simp [addSubscription, Std.ExtTreeMap.getElem?_insert]
  constructor
  · intro other e he
    rw [hget] at he
    split at he
    · obtain rfl := some.inj he
      constructor <;> simp [newSubscription]
    · exact hi other e he
  · rintro ⟨e, he, hm⟩
    refine .inl ⟨e, ?_, hm⟩
    rw [hget, if_neg, he]
    rintro rfl
    rw [hnew] at he
    cases he

theorem createSubscription_kept {x : Settings} {filter : Message → Bool}
    {seeds : List StoredMessage} (hi : s.Indexed) :
    Kept excuse name id m s (s.createSubscription x filter seeds now).state := by
  refine named_state (.rfl hi) (named_state (.rfl hi) ?_)
  split
  · exact .rfl hi
  split
  · exact .rfl hi
  next hfrs =>
  split
  · exact .rfl hi
  next x' hx =>
  have hnew : s.subscriptions[x'.name]? = none := by
    rw [validatedSubscription_name hx]
    simpa using hfrs
  exact (addSubscription_kept hi hnew).gentle
    (gentle_runQuietly fun _ => .foldl _ fun _ _ _ => gentle_track)

theorem deleteSubscription_kept (hi : s.Indexed) : Kept (target = name) name id m s
      (s.deleteSubscription rfc3339Millis now wall target).state := by
  refine known_state (.rfl hi) fun e _ => ?_
  have hlev : Gentle s (s.within rfc3339Millis target now wall leave) :=
    gentle_within fun _ => gentle_leave
  have hget : ∀ (d : State) (other : Text), (d.withoutSubscription target e).subscriptions[other]? =
      if target = other then none else d.subscriptions[other]? := by
    simp [withoutSubscription, forgetGeneration_subscriptions, Std.ExtTreeMap.getElem?_erase]
  constructor
  · intro other e' he'
    simp only [Reply.ok, hget] at he'
    split at he'
    · cases he'
    · exact hlev.indexed hi other e' he'
  · intro hm
    by_cases heq : target = name
    · exact .inr heq
    · obtain ⟨e', he', hm⟩ := hlev.held hm
      exact .inl ⟨e', by simpa only [Reply.ok, hget, if_neg heq] using he', hm⟩

theorem gentle_snapshotRemoved :
    Gentle s (s.snapshotRemoved rfc3339Millis now wall gen) := by
  unfold snapshotRemoved
  split
  · exact .rfl
  next g _ =>
  have hcnt : ∀ generations, Gentle s { s with generations } :=
    fun _ => .of_subscriptions rfl rfl (prefix_refl _)
  exact ((hcnt _).trans (.foldl g.members.toList fun _ _ _ =>
    gentle_within fun _ => gentle_reconsiderAll)).trans gentle_forgetGeneration

theorem pull_kept {maxMessages : Nat} (hi : s.Indexed) :
    Kept excuse name id m s (s.pull rfc3339Millis now wall target maxMessages).state := by
  refine known_state (.rfl hi) fun e _ => ?_
  split
  · exact .rfl hi
  rcases withSubscription_within (s := s) with h | ⟨r, h⟩
  · rw [h]; exact .rfl hi
  rw [h]
  have htk : Gentle s (s.within rfc3339Millis target now wall fun c =>
      (c.take maxMessages s.nextAck now).2) := gentle_within fun _ => gentle_take
  have hack : ∀ d : State, ∀ nextAck, Gentle d { d with nextAck } :=
    fun _ _ => .of_subscriptions rfl rfl (prefix_refl _)
  exact (htk.trans (hack _ _)).kept hi

def stateOf (s : State) (name : Text) (id : Nat) : Option MessageState :=
  (s.subscriptions[name]?.bind (·.messages[id]?)).map Tracked.state

theorem acknowledge_kept {acks : List AckId} (hi : s.Indexed) :
    Kept (target = name ∧ ∃ ack ∈ acks, (s.stateOf name id).bind MessageState.ack =
      some ack.sequence)
      name id m s (s.acknowledge rfc3339Millis now wall target acks).state := by
  refine known_state (.rfl hi) fun e _ => ?_
  split
  · exact .rfl hi
  split
  · exact .rfl hi
  next parsed hpr =>
  have hpr : parsed = acks.map AckId.sequence := by
    unfold parseAckIds at hpr
    split at hpr
    · cases hpr
    · exact (Except.ok.inj hpr).symm
  refine .within hi (fun _ => follows_acknowledgeAll.indexed) fun e he heq hm => ?_
  by_cases hack : ∃ ack ∈ acks, (s.stateOf name id).bind MessageState.ack = some ack.sequence
  · exact .inr ⟨heq, hack⟩
  obtain ⟨t, ht, hmsg⟩ := hm
  refine .inl ⟨t, acknowledgeAll_held (hi name e he) ht ?_, hmsg⟩
  intro sequence hmem hles
  obtain ⟨ack, hack', rfl⟩ := mem_map.mp (hpr ▸ hmem)
  exact hack ⟨ack, hack', by simp [stateOf, he, ht, hles]⟩

theorem modifyAckDeadline_kept {acks : List AckId} {seconds : Int} (hi : s.Indexed)
    (hstd : seconds = 0 → target = name → s.TopicStands name) :
    Survives rfc3339Millis now wall name id m s
      (s.modifyAckDeadline rfc3339Millis now wall target acks seconds).state := by
  refine known_state (P := Survives rfc3339Millis now wall name id m s) (.rfl hi) fun e _ => ?_
  split
  · exact .rfl hi
  split
  · exact .rfl hi
  split
  · exact .rfl hi
  by_cases hzr : seconds = 0
  · exact .within_safe hi (fun _ => follows_modifyDeadlines)
      (fun _ h => h.modifyDeadlines) (hstd hzr)
  · have hne : seconds.toNat ≠ 0 := by omega
    exact (gentle_within fun _ => gentle_extendAll hne).kept hi

theorem releaseLease_kept {j : Nat} (hi : s.Indexed) (hstd : target = name → s.TopicStands name) :
    Survives rfc3339Millis now wall name id m s
      (s.releaseLease rfc3339Millis now wall target j).state := by
  refine known_state (P := Survives rfc3339Millis now wall name id m s) (.rfl hi) fun e _ => ?_
  split
  · exact .rfl hi
  · split
    · exact .rfl hi
    · exact .within_safe hi (fun _ => follows_modifyDeadline) (fun _ h => h.modifyDeadline) hstd

theorem updateSubscription_kept {u : SettingsUpdate} (hi : s.Indexed) :
    Kept excuse name id m s (s.updateSubscription rfc3339Millis now wall target u).state := by
  refine named_state (.rfl hi) ?_
  split
  · exact .rfl hi
  · split
    · exact .rfl hi
    · exact .within hi (fun _ => reconfigure_indexed) fun _ _ _ hm => .inl (reconfigure_held hm)

theorem seekToSnapshot_kept {snap : Text} (hi : s.Indexed) :
    Kept (target = name ∧ ∃ x, s.snapshots[snap]? = some x ∧ id ∉ x.unacked ∧
        m.published ≤ x.created) name id m s
      (s.seekToSnapshot rfc3339Millis now wall target snap).state := by
  refine known_state (.rfl hi) fun e _ => named_state (.rfl hi) ?_
  split
  · exact .rfl hi
  next x hx =>
  split
  · exact .rfl hi
  refine .within hi (fun _ => follows_seekToSnapshot.indexed) fun e he heq hm => ?_
  by_cases hwnt : x.unacked.contains id ∨ x.created < m.published
  · obtain ⟨t, ht, hmsg, -⟩ := hm
    exact .inl (seekToSnapshot_holds.mpr ⟨⟨t, ht, hmsg⟩, hwnt⟩)
  · rw [not_or, not_lt] at hwnt
    exact .inr ⟨heq, x, hx, by simpa using hwnt.1, hwnt.2⟩

end State

/-! ### Runs -/

/-- A request or tick, with the clocks it reads. -/
structure Call where
  event : Event
  now : Instant
  wall : Nat

section Runs
variable (rfc3339Millis : Nat → Text)

variable {calls : List Call}

/-- One call handled; an error is answered and the broker goes on. -/
def step (s : State) (call : Call) : State := (handle rfc3339Millis call.now call.wall s call.event).state

def after (s : State) (calls : List Call) : State := calls.foldl (step rfc3339Millis) s

/-- Why a subscription may stop holding a message in a step. -/
inductive Excused (s s' : State) (now : Instant) (wall : Nat) (name : Text) (id : Nat)
    (m : StoredMessage) : Event → Prop
  | deleted : Excused s s' now wall name id m (.deleteSubscription name)
  | reset : Excused s s' now wall name id m .reset
  | acknowledged {acks : List AckId} {ack : AckId} (mem : ack ∈ acks)
      (lease : (s.stateOf name id).bind MessageState.ack = some ack.sequence) :
      Excused s s' now wall name id m (.acknowledge name acks)
  | pushed {nextAttempt : Instant} (pushing : s.stateOf name id = some (.pushing nextAttempt)) :
      Excused s s' now wall name id m (.pushFinished name id true)
  | soughtTime {target : Nat} (before : m.publishedAt < target) :
      Excused s s' now wall name id m (.seekToTime name target)
  | soughtSnapshot {snapshot : Text} {x : SnapshotEntry} (found : s.snapshots[snapshot]? = some x)
      (unlisted : id ∉ x.unacked) (before : m.published ≤ x.created) :
      Excused s s' now wall name id m (.seekToSnapshot name snapshot)
  | drained : Excused s s' now wall name id m (.drain name)
  | deadLettered {event : Event} (copied : State.Copied rfc3339Millis now wall s s' name m) :
      Excused s s' now wall name id m event

/-- A lease that may end finds its dead-letter topic, and the console acknowledges nothing. -/
def Careful (s : State) : Event → Prop
  | .modifyAckDeadline name _ seconds => seconds = 0 → s.TopicStands name
  | .release name _ => s.TopicStands name
  | .tick => ∀ name, s.TopicStands name
  | .forceAck _ _ => False
  | _ => True

/-- Every step of a run is careful in the state it finds. -/
def CarefulRun (s : State) : List Call → Prop
  | [] => True
  | call :: calls => Careful s call.event ∧ CarefulRun (step rfc3339Millis s call) calls

variable {rfc3339Millis} {s : State} {name : Text} {id : Nat} {m : StoredMessage}

/-- **One careful step keeps a held message or excuses its loss.** -/
theorem step_kept {call : Call} (hi : s.Indexed) (hcar : Careful s call.event) :
    State.Kept (Excused rfc3339Millis s (step rfc3339Millis s call) call.now call.wall name id m
      call.event) name id m s (step rfc3339Millis s call) := by
  obtain ⟨event, now, wall⟩ := call
  cases event with
  | createTopic | createSnapshot =>
    refine named_state (.rfl hi) ?_
    repeat' split
    all_goals exact .of_subscriptions hi rfl
  | deleteTopic topic => exact deleteTopic_kept hi
  | publish topic messages =>
    refine named_state (.rfl hi) ?_
    split
    · exact .rfl hi
    split
    · exact .rfl hi
    split
    · exact .rfl hi
    · have hnx : ∀ nextMessageId, State.Gentle s { s with nextMessageId } :=
        fun _ => .of_subscriptions rfl rfl (prefix_refl _)
      exact ((hnx _).trans gentle_deliver).kept hi
  | createSubscription settings filter seeds => exact createSubscription_kept hi
  | updateSubscription target update => exact updateSubscription_kept hi
  | deleteSubscription target =>
    refine (deleteSubscription_kept hi).imp fun heq => ?_
    subst heq
    exact .deleted
  | modifyPushConfig target endpoint =>
    exact known_state (.rfl hi) fun _ _ => .within hi (fun _ => reconfigure_indexed)
      fun _ _ _ hm => .inl (reconfigure_held hm)
  | pull target maxMessages => exact pull_kept hi
  | acknowledge target acks =>
    refine (acknowledge_kept hi).imp fun ⟨heq, ack, hmem, hles⟩ => ?_
    subst heq
    exact .acknowledged hmem hles
  | modifyAckDeadline target acks seconds =>
    refine (modifyAckDeadline_kept hi fun hzr heq => ?_).imp .deadLettered
    exact heq ▸ hcar hzr
  | tick => exact (tick_kept hi (hcar name)).imp .deadLettered
  | pushFinished target j delivered =>
    have hlnd : State.Gentle s (s.landed target j) :=
      .of_subscriptions rfl rfl (prefix_refl _)
    refine ⟨(within_follows fun _ => follows_finishPush).indexed (hlnd.indexed hi), ?_⟩
    intro hm
    refine (State.Kept.within (hlnd.indexed hi) (fun _ => follows_finishPush.indexed)
      fun e he heq hm => ?_).held (hlnd.held hm)
    by_cases hpsh : j = id ∧ delivered = true ∧
        ∃ at', e.messages[id]?.map Tracked.state = some (.pushing at')
    · obtain ⟨rfl, rfl, at', hps⟩ := hpsh
      subst heq
      have he : s.subscriptions[target]? = some e := he
      have hste : s.stateOf target j = some (.pushing at') := by
        simpa [stateOf, he] using hps
      exact .inr (.pushed hste)
    · exact .inl (finishPush_held hm hpsh)
  | seekToTime target time =>
    refine known_state (.rfl hi) fun _ _ => .within hi
      (fun _ => follows_seekToTime.indexed) fun e he heq hm => ?_
    by_cases haft : time ≤ m.publishedAt
    · exact .inl (seekToTime_held hm haft)
    · subst heq
      exact .inr (.soughtTime (not_le.mp haft))
  | seekToSnapshot target snap =>
    refine (seekToSnapshot_kept hi).imp fun ⟨heq, x, hx, hunl, hbef⟩ => ?_
    subst heq
    exact .soughtSnapshot hx hunl hbef
  | deleteSnapshot snap =>
    refine named_state (.rfl hi) ?_
    split
    · exact .rfl hi
    · have hsn : ∀ snapshots, State.Gentle s { s with snapshots } :=
        fun _ => .of_subscriptions rfl rfl (prefix_refl _)
      exact ((hsn _).trans gentle_snapshotRemoved).kept hi
  | drain target =>
    refine .within hi (fun _ => follows_drain.indexed) fun _ _ heq _ => ?_
    subst heq
    exact .inr .drained
  | reset =>
    refine ⟨fun other e he => ?_, fun _ => .inr .reset⟩
    simp [step, handle, Reply.ok, reset] at he
  | forceAck target j => exact absurd hcar not_false
  | release target j =>
    exact (releaseLease_kept hi fun heq => heq ▸ hcar).imp .deadLettered

theorem indexed_step (hi : s.Indexed) (call : Call) : (step rfc3339Millis s call).Indexed := by
  by_cases hcar : Careful s call.event
  · have hkp : State.Kept _ [] 0 ⟨0, ⟨[], ∅, []⟩, 0, 0, 0⟩ s (step rfc3339Millis s call) :=
      step_kept hi hcar
    exact hkp.indexed
  · obtain ⟨event, now, wall⟩ := call
    cases event with
    | tick => exact tick_follows.indexed hi
    | modifyAckDeadline =>
      refine known_state hi fun _ _ => ?_
      repeat' split
      all_goals first
        | exact hi
        | exact (within_follows fun _ => follows_modifyDeadlines).indexed hi
    | release =>
      refine known_state hi fun _ _ => ?_
      repeat' split
      all_goals first
        | exact hi
        | exact (within_follows fun _ => follows_modifyDeadline).indexed hi
    | forceAck =>
      refine known_state hi fun _ _ => ?_
      repeat' split
      all_goals first
        | exact hi
        | exact (within_follows fun _ => follows_acknowledge).indexed hi
    | _ => exact absurd trivial hcar

/-- What holds after one run and along the next. -/
theorem carefulRun_append {calls' : List Call} (hi : s.Indexed)
    (h : CarefulRun rfc3339Millis s (calls ++ calls')) :
    (after rfc3339Millis s calls).Indexed ∧
      CarefulRun rfc3339Millis (after rfc3339Millis s calls) calls' := by
  induction calls generalizing s with
  | nil => exact ⟨hi, h⟩
  | cons call calls ih => exact ih (indexed_step hi call) h.2

theorem after_append {calls' : List Call} : after rfc3339Millis s (calls ++ calls') =
      after rfc3339Millis (after rfc3339Millis s calls) calls' := foldl_append

/-- From any state with right indexes. -/
theorem kept_along (hi : s.Indexed) (hcar : CarefulRun rfc3339Millis s calls)
    (hm : s.Holds name id m) :
    (after rfc3339Millis s calls).Holds name id m ∨
    ∃ earlier call later, calls = earlier ++ call :: later ∧
      Excused rfc3339Millis (after rfc3339Millis s earlier)
        (after rfc3339Millis s (earlier ++ [call])) call.now call.wall name id m call.event := by
  induction calls generalizing s with
  | nil => exact .inl hm
  | cons call calls ih =>
    rcases (step_kept hi hcar.1).held hm with hhl | hexc
    · rcases ih (indexed_step hi _) hcar.2 hhl with hkp | ⟨earlier, x, later, rfl, h⟩
      · exact .inl hkp
      · exact .inr ⟨call :: earlier, x, later, rfl, h⟩
    · exact .inr ⟨[], call, calls, rfl, hexc⟩

end Runs

/-- A new broker. -/
def fresh (retainedAcked : Nat) (started : Instant) : State :=
  { retainedAcked, nextSlowTick := started + second }

/-- **No delivered message is lost.** Whenever a subscription holds a message unacknowledged, it
holds it at every later point of a careful run, unless a step in between excuses the loss. -/
theorem delivered_kept (rfc3339Millis : Nat → Text) (retainedAcked : Nat) (started : Instant)
    (before later : List Call)
    (hcareful : CarefulRun rfc3339Millis (fresh retainedAcked started) (before ++ later))
    (name : Text) (id : Nat) (m : StoredMessage)
    (hm : (after rfc3339Millis (fresh retainedAcked started) before).Holds name id m) :
    (after rfc3339Millis (fresh retainedAcked started) (before ++ later)).Holds name id m ∨
    ∃ earlier call rest, later = earlier ++ call :: rest ∧
      Excused rfc3339Millis (after rfc3339Millis (fresh retainedAcked started) (before ++ earlier))
        (after rfc3339Millis (fresh retainedAcked started) (before ++ earlier ++ [call]))
        call.now call.wall name id m call.event := by
  have hfrs : (fresh retainedAcked started).Indexed := by
    intro other e he
    simp [fresh] at he
  obtain ⟨hi, hlat⟩ := carefulRun_append hfrs hcareful
  rcases kept_along hi hlat hm with hkp | ⟨earlier, call, rest, hspl, hexc⟩
  · exact .inl (by rwa [after_append])
  · refine .inr ⟨earlier, call, rest, hspl, ?_⟩
    rwa [append_assoc, after_append, after_append]

/-! ### A dead-letter topic that disappears -/

def sampleTopic : Text := ascii "projects/p/topics/orders"

def sampleDeadTopic : Text := ascii "projects/p/topics/dead"

def sampleSubscription : Text := ascii "projects/p/subscriptions/worker"

def sampleSettings : Settings where
  name := sampleSubscription
  topic := sampleTopic
  deadLetterPolicy := some ⟨sampleDeadTopic, 5⟩

/-- Two topics, a subscription that dead-letters after five attempts, and one message. -/
def sampleSetup : List Call :=
  [⟨.createTopic sampleTopic none, 0, 0⟩, ⟨.createTopic sampleDeadTopic none, 0, 0⟩,
   ⟨.createSubscription sampleSettings (fun _ => true) [], 0, 0⟩,
   ⟨.publish sampleTopic [⟨ascii "order", ∅, []⟩], 1, 1⟩]

def samplePull : Call := ⟨.pull sampleSubscription 1, 2, 2⟩

/-- A nack of the lease with the ack id. -/
def sampleNack (ack : Nat) : Call :=
  ⟨.modifyAckDeadline sampleSubscription [⟨sampleSubscription, ack⟩] 0, 3, 3⟩

/-- Five deliveries, the last not nacked yet. -/
def sampleDeliveries : List Call :=
  sampleSetup ++ [samplePull, sampleNack 1, samplePull, sampleNack 2, samplePull, sampleNack 3,
    samplePull, sampleNack 4, samplePull]

/-- What a subscription holds under an id, unless it is acknowledged. -/
def heldAt (s : State) (name : Text) (id : Nat) : Option StoredMessage :=
  ((s.subscriptions[name]?.bind (·.messages[id]?)).filter Tracked.unacked).map Tracked.message

theorem holds_iff {s : State} {name : Text} {id : Nat} {m : StoredMessage} :
    s.Holds name id m ↔ heldAt s name id = some m := by
  simp only [State.Holds, SubscriptionEntry.Holds, heldAt, map_eq_some_iff,
    filter_eq_some_iff, bind_eq_some_iff]
  constructor
  · rintro ⟨e, he, t, ht, hmsg, hu⟩
    exact ⟨t, ⟨⟨e, he, ht⟩, hu⟩, hmsg⟩
  · rintro ⟨t, ⟨⟨e, he, ht⟩, hu⟩, hmsg⟩
    exact ⟨e, he, t, ht, hmsg, hu⟩

theorem topicStands_of {s : State} {name : Text}
    (h : (s.policy name).all (fun policy => s.topics.contains policy.deadLetterTopic) = true) :
    s.TopicStands name := by
  intro policy hpol
  simpa [hpol] using h

theorem delivered_kept_nack :
    ∃ m, (after (fun _ => []) (fresh 100000 0) sampleSetup).Holds sampleSubscription 1 m ∧
      ((after (fun _ => []) (fresh 100000 0) (sampleSetup ++ [samplePull, sampleNack 1])).Holds
          sampleSubscription 1 m ∨
        ∃ earlier call rest, [samplePull, sampleNack 1] = earlier ++ call :: rest ∧
          Excused (fun _ => []) (after (fun _ => []) (fresh 100000 0) (sampleSetup ++ earlier))
            (after (fun _ => []) (fresh 100000 0) (sampleSetup ++ earlier ++ [call]))
            call.now call.wall sampleSubscription 1 m call.event) := by
  have hhl : (heldAt (after (fun _ => []) (fresh 100000 0) sampleSetup)
      sampleSubscription 1).isSome = true := by decide +kernel
  obtain ⟨m, hm⟩ := isSome_iff_exists.mp hhl
  have hm := holds_iff.mpr hm
  exact ⟨m, hm, delivered_kept _ 100000 0 sampleSetup [samplePull, sampleNack 1]
    ⟨trivial, trivial, trivial, trivial, trivial, fun _ => topicStands_of (by decide +kernel), trivial⟩
    sampleSubscription 1 m hm⟩

/-- The topic is deleted, and the fifth nack lets go of the message without a copy. -/
theorem dead_letter_lost : ∃ m, (after (fun _ => []) (fresh 100000 0)
        (sampleDeliveries ++ [⟨.deleteTopic sampleDeadTopic, 3, 3⟩])).Holds sampleSubscription 1 m ∧
      ¬ (after (fun _ => []) (fresh 100000 0) (sampleDeliveries ++
        [⟨.deleteTopic sampleDeadTopic, 3, 3⟩, sampleNack 5])).Holds sampleSubscription 1 m ∧
      ¬ Excused (fun _ => []) (after (fun _ => []) (fresh 100000 0)
          (sampleDeliveries ++ [⟨.deleteTopic sampleDeadTopic, 3, 3⟩]))
        (after (fun _ => []) (fresh 100000 0)
          (sampleDeliveries ++ [⟨.deleteTopic sampleDeadTopic, 3, 3⟩, sampleNack 5]))
        (sampleNack 5).now (sampleNack 5).wall sampleSubscription 1 m (sampleNack 5).event := by
  have hhl : (heldAt (after (fun _ => []) (fresh 100000 0) (sampleDeliveries ++
      [⟨.deleteTopic sampleDeadTopic, 3, 3⟩])) sampleSubscription 1).isSome = true := by decide +kernel
  have hls : (heldAt (after (fun _ => []) (fresh 100000 0) (sampleDeliveries ++
      [⟨.deleteTopic sampleDeadTopic, 3, 3⟩, sampleNack 5])) sampleSubscription 1).isNone = true := by
    decide +kernel
  have hpub : (after (fun _ => []) (fresh 100000 0) (sampleDeliveries ++
      [⟨.deleteTopic sampleDeadTopic, 3, 3⟩, sampleNack 5])).published.length =
      (after (fun _ => []) (fresh 100000 0) (sampleDeliveries ++
        [⟨.deleteTopic sampleDeadTopic, 3, 3⟩])).published.length := by decide +kernel
  obtain ⟨m, hm⟩ := isSome_iff_exists.mp hhl
  refine ⟨m, holds_iff.mpr hm, fun h => ?_, fun h => ?_⟩
  · rw [holds_iff, isNone_iff_eq_none.mp hls] at h
    cases h
  cases h with
  | deadLettered copied =>
    obtain ⟨policy, attempts, copyId, new, -, hnew, hmem⟩ := copied
    rw [hnew, length_append] at hpub
    obtain rfl : new = [] := length_eq_zero_iff.mp (by omega)
    cases hmem

end Firenook.Pubsub
