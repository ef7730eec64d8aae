import Mathlib

/-!
# Leases on the entries of a queue

A queue holds at most one entry per key. An entry is free, or leased to a token until some time. A
token is granted an entry by a claim, keeps it by renewing the lease, and loses it by giving it
back, by the removal of the entry, by the recovery of leases that have run out, or to another claim
after its lease has run out.

What a store may answer to an action, and what the action then does, is `LeaseAct.Allows`; stores
may differ in whether they let a claim take over a lease that has run out. For every store that
keeps to it: the standing of a token that was granted an entry (`Standing`) is kept by all that
happens afterwards, as long as the token does not claim again and time does not run backwards
(`Standing.run`). So a token that was superseded can do nothing more (`Lost.run`), and of several
claims on a free entry one is granted (`one_claim_granted`).
-/

set_option autoImplicit false

namespace Runvane.Library

/-- An entry as far as leases are concerned. -/
structure LeaseSlot (T : Type) where
  token : T
  leaseEnd : Option ℤ
  deriving DecidableEq

/-- The lease of the entry has not run out. -/
def LeaseSlot.Running {T : Type} (slot : LeaseSlot T) (now : ℤ) : Prop :=
  ∃ leaseEnd, slot.leaseEnd = some leaseEnd ∧ now < leaseEnd

/-- What can be asked of the queue. -/
inductive LeaseAct (K T : Type)
  | enqueue (k : K)
  | claim (k : K) (t : T) (now leaseEnd : ℤ)
  | remove (k : K) (t : T)
  | clear (k : K) (t : T)
  | renew (k : K) (t : T) (now leaseEnd : ℤ)
  | recover (now : ℤ)
  | cancel (k : K) (now : ℤ)

/-- The entries of a queue by their keys. -/
abbrev LeaseView (K T : Type) := K → Option (LeaseSlot T)

namespace LeaseAct

variable {K T : Type} [DecidableEq K]

def time : LeaseAct K T → Option ℤ
  | claim _ _ now _ | renew _ _ now _ | recover now | cancel _ now => some now
  | enqueue _ | remove _ _ | clear _ _ => none

/-- Whether a queue may grant or refuse the action, and what becomes of its entries. What it refuses
changes nothing. -/
def Allows (free : T) (q : LeaseView K T) (act : LeaseAct K T) (granted : Prop)
    (q' : LeaseView K T) : Prop :=
  match act with
  | enqueue k => (granted → q k = none ∧ q' = Function.update q k (some ⟨free, none⟩)) ∧
      (¬ granted → q' = q)
  | claim k t now leaseEnd =>
      (granted → (∃ slot, q k = some slot ∧ (slot.Running now → slot.token = t)) ∧
        q' = Function.update q k (some ⟨t, some leaseEnd⟩)) ∧
      (¬ granted → (∀ slot, q k = some slot → slot.leaseEnd ≠ none) ∧ q' = q)
  | remove k t => (granted → (∃ slot, q k = some slot ∧ slot.token = t) ∧
        q' = Function.update q k none) ∧
      (¬ granted → q' = q)
  | clear k t => (granted → (∃ slot, q k = some slot ∧ slot.token = t) ∧
        q' = Function.update q k (some ⟨free, none⟩)) ∧
      (¬ granted → q' = q)
  | renew k t now leaseEnd =>
      (granted → (∃ slot, q k = some slot ∧ slot.token = t ∧ slot.Running now) ∧
        q' = Function.update q k (some ⟨t, some leaseEnd⟩)) ∧
      (¬ granted → q' = q)
  | recover now => ∀ k, q' k = q k ∨
      ∃ slot leaseEnd, q k = some slot ∧ slot.leaseEnd = some leaseEnd ∧ leaseEnd ≤ now ∧
        q' k = some ⟨free, none⟩
  | cancel k _ => (granted → q' = Function.update q k none) ∧ (¬ granted → q' = q)

/-- The end of the lease that the action, when it is granted, gives to the token. -/
def leaseEndFor [DecidableEq T] (k : K) (t : T) : LeaseAct K T → Option ℤ
  | claim k' t' _ leaseEnd | renew k' t' _ leaseEnd =>
    if k' = k ∧ t' = t then some leaseEnd else none
  | _ => none

/-- Whether the action, when it is granted, gives the entry back on behalf of the token, or removes
it whoever holds it. -/
def Ends (k : K) (t : T) : LeaseAct K T → Prop
  | remove k' t' | clear k' t' => k' = k ∧ t' = t
  | cancel k' _ => k' = k
  | _ => False

def Claims (k : K) (t : T) : LeaseAct K T → Prop
  | claim k' t' _ _ => k' = k ∧ t' = t
  | _ => False

/-- Whether the action is one of those a holder takes on its entry. -/
def ByHolder (k : K) (t : T) : LeaseAct K T → Prop
  | remove k' t' | clear k' t' | renew k' t' _ _ => k' = k ∧ t' = t
  | _ => False

end LeaseAct

section Effect

variable {K T : Type} [DecidableEq K] [DecidableEq T] {free : T} {q q' : LeaseView K T}
  {act : LeaseAct K T} {granted : Prop} {k : K} {t : T}

/-- What an action can do to the entry under a key. -/
inductive LeaseEffect (free : T) (q q' : LeaseView K T) (act : LeaseAct K T) (granted : Prop)
    (k : K) : Prop
  | kept (h : q' k = q k) (hnone : granted → ∀ t, act.leaseEndFor k t = none)
  | claimed (t : T) (now leaseEnd : ℤ) (slot : LeaseSlot T) (hgranted : granted)
      (hact : act = .claim k t now leaseEnd) (hslot : q k = some slot)
      (hover : slot.Running now → slot.token = t) (h : q' k = some ⟨t, some leaseEnd⟩)
  | renewed (t : T) (now leaseEnd : ℤ) (slot : LeaseSlot T) (hgranted : granted)
      (hact : act = .renew k t now leaseEnd) (hslot : q k = some slot) (htoken : slot.token = t)
      (h : q' k = some ⟨t, some leaseEnd⟩)
  | freed (h : ∀ slot', q' k = some slot' → slot'.token = free)
      (hnone : ∀ t, act.leaseEndFor k t = none)
      (hreason : ∀ slot, q k = some slot → (granted ∧ act.Ends k slot.token) ∨
        ∃ leaseEnd now, slot.leaseEnd = some leaseEnd ∧ act.time = some now ∧ leaseEnd ≤ now)

/-- A holder that gives its entry back frees it. -/
theorem LeaseEffect.of_holder {slot : LeaseSlot T} {left : Option (LeaseSlot T)}
    (hgranted : granted) (hslot : q k = some slot) (hends : act.Ends k slot.token)
    (hnone : ∀ t, act.leaseEndFor k t = none)
    (hleft : ∀ slot', left = some slot' → slot'.token = free) :
    LeaseEffect free q (Function.update q k left) act granted k := by
  refine .freed (by simpa using hleft) hnone fun slot' hslot' ↦ ?_
  obtain rfl : slot = slot' := Option.some.inj (hslot.symm.trans hslot')
  exact .inl ⟨hgranted, hends⟩

theorem LeaseEffect.of_recover {now : ℤ}
    (h : (LeaseAct.recover now).Allows free q granted q') (k : K) :
    LeaseEffect free q q' (.recover now) granted k := by
  rcases h k with hsame | ⟨slot, leaseEnd, hslot, hleaseEnd, hle, hfree⟩
  · exact .kept hsame fun _ _ ↦ rfl
  · refine .freed (by simp [hfree]) (fun _ ↦ rfl) fun slot' hslot' ↦ ?_
    obtain rfl : slot = slot' := Option.some.inj (hslot.symm.trans hslot')
    exact .inr ⟨leaseEnd, now, hleaseEnd, rfl, hle⟩

/-- What an action that is granted does to the entry under the key it is about; other entries are
kept. -/
theorem LeaseAct.Allows.effect_of_granted (h : act.Allows free q granted q') (hgranted : granted)
    (k : K) : LeaseEffect free q q' act granted k := by
  have hkept : ∀ {k' : K} {left : Option (LeaseSlot T)}, q' = Function.update q k' left →
      k' ≠ k → (∀ t, act.leaseEndFor k t = none) → LeaseEffect free q q' act granted k := by
    rintro k' left rfl hk hnone
    exact .kept (Function.update_of_ne (Ne.symm hk) _ _) fun _ ↦ hnone
  cases act with
  | enqueue k' =>
    obtain ⟨hnone, hq'⟩ := h.1 hgranted
    by_cases hk : k' = k
    · subst hk hq'
      refine .freed (by simp) (fun _ ↦ rfl) fun slot hslot ↦ ?_
      simp [hnone] at hslot
    · exact hkept hq' hk fun _ ↦ rfl
  | claim k' t' now leaseEnd =>
    obtain ⟨⟨slot, hslot, hover⟩, hq'⟩ := h.1 hgranted
    by_cases hk : k' = k
    · subst hk hq'
      exact .claimed t' now leaseEnd slot hgranted rfl hslot hover (Function.update_self ..)
    · exact hkept hq' hk fun t ↦ by simp [LeaseAct.leaseEndFor, hk]
  | remove k' t' =>
    obtain ⟨⟨slot, hslot, htoken⟩, hq'⟩ := h.1 hgranted
    by_cases hk : k' = k
    · subst hk hq'
      exact .of_holder hgranted hslot ⟨rfl, htoken.symm⟩ (fun _ ↦ rfl) (by simp)
    · exact hkept hq' hk fun _ ↦ rfl
  | clear k' t' =>
    obtain ⟨⟨slot, hslot, htoken⟩, hq'⟩ := h.1 hgranted
    by_cases hk : k' = k
    · subst hk hq'
      exact .of_holder hgranted hslot ⟨rfl, htoken.symm⟩ (fun _ ↦ rfl) (by simp)
    · exact hkept hq' hk fun _ ↦ rfl
  | renew k' t' now leaseEnd =>
    obtain ⟨⟨slot, hslot, htoken, -⟩, hq'⟩ := h.1 hgranted
    by_cases hk : k' = k
    · subst hk hq'
      exact .renewed t' now leaseEnd slot hgranted rfl hslot htoken (Function.update_self ..)
    · exact hkept hq' hk fun t ↦ by simp [LeaseAct.leaseEndFor, hk]
  | recover now => exact .of_recover h k
  | cancel k' now =>
    have hq' := h.1 hgranted
    by_cases hk : k' = k
    · subst hk hq'
      exact .freed (by simp) (fun _ ↦ rfl) fun slot _ ↦ .inl ⟨hgranted, rfl⟩
    · exact hkept hq' hk fun _ ↦ rfl

/-- Everything an action can do to the entry under a key. -/
theorem LeaseAct.Allows.effect (h : act.Allows free q granted q') (k : K) :
    LeaseEffect free q q' act granted k := by
  by_cases hgranted : granted
  · exact h.effect_of_granted hgranted k
  · have hkept : q' = q → LeaseEffect free q q' act granted k := fun hsame ↦
      .kept (congrFun hsame k) fun hg ↦ absurd hg hgranted
    cases act with
    | recover now => exact .of_recover h k
    | claim => exact hkept (h.2 hgranted).2
    | _ => exact hkept (h.2 hgranted)

end Effect

/-! ### The standing of a token -/

section Standing

variable {K T : Type} [DecidableEq K] [DecidableEq T] {free : T} {q q' : LeaseView K T} {k : K}
  {t : T} {now : ℤ} {events : List (LeaseAct K T × Bool)}

/-- A sequence of actions with the answers to them. -/
inductive LeaseRun (free : T) : LeaseView K T → List (LeaseAct K T × Bool) → LeaseView K T → Prop
  | nil {q : LeaseView K T} : LeaseRun free q [] q
  | cons {q q₁ q' : LeaseView K T} {event : LeaseAct K T × Bool}
      {events : List (LeaseAct K T × Bool)} (h : event.1.Allows free q (event.2 = true) q₁)
      (hrest : LeaseRun free q₁ events q') : LeaseRun free q (event :: events) q'

/-- The ends of the leases that a token was given on an entry, in their order. -/
def leaseEnds (k : K) (t : T) (events : List (LeaseAct K T × Bool)) : List ℤ :=
  events.filterMap fun event ↦ if event.2 then event.1.leaseEndFor k t else none

/-- The entry is gone, or not the token's. -/
def Lost (k : K) (t : T) (q : LeaseView K T) : Prop := ∀ slot, q k = some slot → slot.token ≠ t

/-- The standing of a token that was granted an entry at the beginning of `events`: it holds the
entry until the end of its latest lease, or it has lost it by one of the events or because that
lease has run out. -/
def Standing (k : K) (t : T) (events : List (LeaseAct K T × Bool)) (q : LeaseView K T) (now : ℤ) :
    Prop :=
  ∃ leaseEnd, (leaseEnds k t events).getLast? = some leaseEnd ∧
    (q k = some ⟨t, some leaseEnd⟩ ∨
      Lost k t q ∧ ((∃ event ∈ events, event.2 = true ∧ event.1.Ends k t) ∨ leaseEnd ≤ now))

variable {event : LeaseAct K T × Bool}

/-- What an action does to a token that has lost the entry. -/
theorem Lost.step (h : Lost k t q) (hfree : t ≠ free) (hclaim : ¬ event.1.Claims k t)
    (hallows : event.1.Allows free q (event.2 = true) q') : Lost k t q' := by
  intro slot' hslot'
  cases hallows.effect k with
  | kept hsame => exact h slot' (hsame ▸ hslot')
  | claimed t' now leaseEnd slot hgranted hact hslot hover hq' =>
    rw [hq'] at hslot'
    obtain rfl := Option.some.inj hslot'
    rintro rfl
    exact hclaim (by rw [hact]; exact ⟨rfl, rfl⟩)
  | renewed t' now leaseEnd slot hgranted hact hslot htoken hq' =>
    rw [hq'] at hslot'
    obtain rfl := Option.some.inj hslot'
    exact htoken ▸ h slot hslot
  | freed hq' => exact (hq' slot' hslot').symm ▸ hfree.symm

theorem Lost.run (h : Lost k t q) (hfree : t ≠ free) (hrun : LeaseRun free q events q')
    (hclaims : ∀ event ∈ events, ¬ event.1.Claims k t) : Lost k t q' := by
  induction hrun with
  | nil => exact h
  | cons hstep _ ih =>
    obtain ⟨hclaim, hclaims⟩ := List.forall_mem_cons.mp hclaims
    exact ih (h.step hfree hclaim hstep) hclaims

omit [DecidableEq T] in
/-- A token that has lost the entry is refused what only a holder may do. -/
theorem Lost.refused {act : LeaseAct K T} {granted : Prop} (h : Lost k t q)
    (hact : act.ByHolder k t) (hallows : act.Allows free q granted q') : ¬ granted := by
  intro hgranted
  cases act with
  | remove k' t' | clear k' t' | renew k' t' now leaseEnd =>
    obtain ⟨rfl, rfl⟩ := hact
    obtain ⟨slot, hslot, htoken⟩ := (hallows.1 hgranted).1
    first | exact h slot hslot htoken | exact h slot hslot htoken.1
  | _ => exact hact

theorem leaseEnds_append_singleton (event : LeaseAct K T × Bool) :
    leaseEnds k t (events ++ [event]) =
      leaseEnds k t events ++ (if event.2 then event.1.leaseEndFor k t else none).toList := by
  unfold leaseEnds
  rw [List.filterMap_append]
  rfl

/-- A token that is granted an entry holds it. -/
theorem standing_of_granted {leaseEnd : ℤ}
    (h : (LeaseAct.claim k t now leaseEnd).Allows free q True q') :
    Standing k t [(.claim k t now leaseEnd, true)] q' now := by
  obtain ⟨-, rfl⟩ := h.1 trivial
  exact ⟨leaseEnd, by simp [leaseEnds, LeaseAct.leaseEndFor], .inl (Function.update_self ..)⟩

/-- An event that gives the token no lease, and that it loses its entry by if it held it, keeps the
standing. -/
theorem Standing.lose {now' : ℤ} (h : Standing k t events q now) (hlost : Lost k t q')
    (hnone : event.1.leaseEndFor k t = none) (hle : now ≤ now')
    (hreason : ∀ leaseEnd, q k = some ⟨t, some leaseEnd⟩ →
      (event.2 = true ∧ event.1.Ends k t) ∨ leaseEnd ≤ now') :
    Standing k t (events ++ [event]) q' now' := by
  obtain ⟨leaseEnd, hlast, hstanding⟩ := h
  refine ⟨leaseEnd, by simpa [leaseEnds_append_singleton, hnone] using hlast, .inr ⟨hlost, ?_⟩⟩
  rcases hstanding with hheld | ⟨-, ⟨past, hpast, hends⟩ | hover⟩
  · exact (hreason leaseEnd hheld).imp_left fun hends ↦ ⟨event, by simp, hends⟩
  · exact .inl ⟨past, List.mem_append_left _ hpast, hends⟩
  · exact .inr (hover.trans hle)

/-- Every event keeps the standing, unless the token claims the entry again. -/
theorem Standing.step (h : Standing k t events q now) (hfree : t ≠ free)
    (hclaim : ¬ event.1.Claims k t) (hallows : event.1.Allows free q (event.2 = true) q')
    (htime : ∀ time, event.1.time = some time → now ≤ time) :
    Standing k t (events ++ [event]) q' (event.1.time.getD now) := by
  have hle : now ≤ event.1.time.getD now := by
    cases htimes : event.1.time with
    | none => exact le_rfl
    | some time => exact htime time htimes
  cases hallows.effect k with
  | kept hsame hnone =>
    obtain ⟨leaseEnd, hlast, hstanding⟩ := h
    have hends : (if event.2 then event.1.leaseEndFor k t else none) = none := by
      split_ifs with hgranted
      · exact hnone hgranted t
      · rfl
    refine ⟨leaseEnd, by simpa [leaseEnds_append_singleton, hends] using hlast, ?_⟩
    unfold Lost
    rw [hsame]
    refine hstanding.imp_right fun ⟨hlost, hreason⟩ ↦ ⟨hlost, ?_⟩
    rcases hreason with ⟨past, hpast, hpast'⟩ | hover
    · exact .inl ⟨past, List.mem_append_left _ hpast, hpast'⟩
    · exact .inr (hover.trans hle)
  | claimed t' now' leaseEnd slot hgranted hact hslot hover hq' =>
    have hne : t' ≠ t := by
      rintro rfl
      exact hclaim (by rw [hact]; exact ⟨rfl, rfl⟩)
    refine h.lose (fun slot' hslot' ↦ ?_) (by simp [hact, LeaseAct.leaseEndFor, hne]) hle
      fun held hheld ↦ .inr ?_
    · rw [hq'] at hslot'
      exact Option.some.inj hslot' ▸ hne
    · -- the claim of another token was granted, so the lease has run out
      obtain rfl : slot = ⟨t, some held⟩ := Option.some.inj (hslot.symm.trans hheld)
      rw [hact]
      by_contra hlt
      exact hne (hover ⟨held, rfl, not_le.mp hlt⟩).symm
  | renewed t' now' leaseEnd slot hgranted hact hslot htoken hq' =>
    by_cases hne : t' = t
    · subst hne
      refine ⟨leaseEnd, ?_, .inl hq'⟩
      simp [leaseEnds_append_singleton, hgranted, hact, LeaseAct.leaseEndFor]
    · refine h.lose (fun slot' hslot' ↦ ?_) (by simp [hact, LeaseAct.leaseEndFor, hne]) hle
        fun held hheld ↦ absurd ?_ hne
      · rw [hq'] at hslot'
        exact Option.some.inj hslot' ▸ hne
      · obtain rfl : slot = ⟨t, some held⟩ := Option.some.inj (hslot.symm.trans hheld)
        exact htoken.symm
  | freed hq' hnone hreason =>
    refine h.lose (fun slot' hslot' ↦ ?_) (hnone t) hle fun held hheld ↦ ?_
    · rw [hq' slot' hslot']
      exact hfree.symm
    · refine (hreason _ hheld).imp_right ?_
      rintro ⟨leaseEnd, time, hleaseEnd, htime', hover⟩
      obtain rfl := Option.some.inj hleaseEnd
      simpa [htime'] using hover

/-- The standing is kept by everything that happens, as long as the token does not claim the entry
again and time does not run backwards. -/
theorem Standing.run {later rest : List (LeaseAct K T × Bool)} (h : Standing k t events q now)
    (hfree : t ≠ free) (hrun : LeaseRun free q later q')
    (hclaims : ∀ event ∈ later, ¬ event.1.Claims k t)
    (htimes : (now :: (later ++ rest).filterMap fun event ↦ event.1.time).Pairwise (· ≤ ·)) :
    ∃ now', Standing k t (events ++ later) q' now' ∧
      (now' :: rest.filterMap fun event ↦ event.1.time).Pairwise (· ≤ ·) := by
  induction hrun generalizing events now with
  | nil => exact ⟨now, by simpa using h, by simpa using htimes⟩
  | @cons q q₁ q' event later hstep _ ih =>
    obtain ⟨hclaim, hclaims⟩ := List.forall_mem_cons.mp hclaims
    rw [List.cons_append, List.filterMap_cons] at htimes
    have hnext : ((event.1.time.getD now) ::
        (later ++ rest).filterMap fun event ↦ event.1.time).Pairwise (· ≤ ·) ∧
        ∀ time, event.1.time = some time → now ≤ time := by
      cases htime : event.1.time with
      | none => exact ⟨by simpa [htime] using htimes, by simp⟩
      | some time =>
        rw [htime] at htimes
        obtain ⟨hfirst, hlater⟩ := List.pairwise_cons.mp htimes
        exact ⟨hlater, by simpa using hfirst time (by simp)⟩
    obtain ⟨now', hstanding, hrest⟩ :=
      ih (h.step hfree hclaim hstep hnext.2) hclaims hnext.1
    exact ⟨now', by rwa [List.append_assoc] at hstanding, hrest⟩

/-- When another token is granted the entry, the one before it has lost it. -/
theorem Standing.superseded {t' : T} {now' leaseEnd' : ℤ} (h : Standing k t events q now)
    (hallows : (LeaseAct.claim k t' now' leaseEnd').Allows free q True q') (hne : t ≠ t')
    (hle : now ≤ now') : (∃ event ∈ events, event.2 = true ∧ event.1.Ends k t) ∨
      ∃ leaseEnd, (leaseEnds k t events).getLast? = some leaseEnd ∧ leaseEnd ≤ now' := by
  obtain ⟨⟨slot, hslot, hover⟩, -⟩ := hallows.1 trivial
  obtain ⟨leaseEnd, hlast, hheld | ⟨-, hends | hover'⟩⟩ := h
  · obtain rfl : slot = ⟨t, some leaseEnd⟩ := Option.some.inj (hslot.symm.trans hheld)
    refine .inr ⟨leaseEnd, hlast, ?_⟩
    by_contra hlt
    exact hne (hover ⟨leaseEnd, rfl, not_le.mp hlt⟩)
  · exact .inl hends
  · exact .inr ⟨leaseEnd, hlast, hover'.trans hle⟩

end Standing

/-! ### Claims at one time -/

section OneTime

variable {K T : Type} [DecidableEq K] {free : T} {q q' : LeaseView K T} {k : K} {t : T}
  {now : ℤ} {events : List (LeaseAct K T × Bool)}

/-- While a lease is running, the claims of other tokens are refused. -/
theorem claims_refused {leaseEnd : ℤ} (hrun : LeaseRun free q events q')
    (hslot : q k = some ⟨t, some leaseEnd⟩) (hrunning : now < leaseEnd)
    (hclaims : ∀ event ∈ events, ∃ t' leaseEnd', event.1 = .claim k t' now leaseEnd' ∧ t' ≠ t) :
    ∀ event ∈ events, event.2 = false := by
  induction hrun with
  | nil => simp
  | cons hstep _ ih =>
    obtain ⟨⟨t', leaseEnd', hact, hne⟩, hclaims⟩ := List.forall_mem_cons.mp hclaims
    rw [hact] at hstep
    have hrefused : ¬ _ = true := fun hgranted ↦ by
      obtain ⟨⟨slot, hslot', hover⟩, -⟩ := hstep.1 hgranted
      obtain rfl : slot = ⟨t, some leaseEnd⟩ := Option.some.inj (hslot'.symm.trans hslot)
      exact hne (hover ⟨leaseEnd, rfl, hrunning⟩).symm
    refine List.forall_mem_cons.mpr ⟨by simpa using hrefused, ih ?_ hclaims⟩
    rwa [(hstep.2 hrefused).2]

/-- Of the claims of several tokens on an entry without a lease, made at one time, one is granted.
-/
theorem one_claim_granted {claims : List (T × ℤ)} (hrun : LeaseRun free q events q')
    (hevents : events.map Prod.fst = claims.map fun claim ↦ .claim k claim.1 now claim.2)
    (hslot : ∃ slot, q k = some slot ∧ slot.leaseEnd = none) (hne : claims ≠ [])
    (hnodup : (claims.map Prod.fst).Nodup) (hends : ∀ claim ∈ claims, now < claim.2) :
    (events.filter (·.2)).length = 1 := by
  cases claims with
  | nil => exact absurd rfl hne
  | cons claim claims =>
    cases hrun with
    | nil => simp at hevents
    | @cons _ q₁ _ event events hstep hrest =>
      rw [List.map_cons, List.map_cons, List.cons_eq_cons] at hevents
      obtain ⟨hact, hevents⟩ := hevents
      rw [hact] at hstep
      rw [List.map_cons, List.nodup_cons] at hnodup
      obtain ⟨slot, hslot, hfree⟩ := hslot
      have hgranted : event.2 = true := by
        by_contra hrefused
        exact (hstep.2 hrefused).1 slot hslot hfree
      obtain ⟨-, hq₁⟩ := hstep.1 hgranted
      have hrefused := claims_refused hrest (by rw [hq₁, Function.update_self])
        (hends claim (List.mem_cons_self ..)) fun event hevent ↦ by
          have hmem : event.1 ∈ claims.map fun claim ↦ LeaseAct.claim k claim.1 now claim.2 :=
            hevents ▸ List.mem_map_of_mem hevent
          obtain ⟨other, hother, hact'⟩ := List.mem_map.mp hmem
          refine ⟨other.1, other.2, hact'.symm, ?_⟩
          rintro heq
          exact hnodup.1 (heq ▸ List.mem_map_of_mem hother)
      have hnone : events.filter (·.2) = [] := by
        rw [List.filter_eq_nil_iff]
        exact fun event hevent ↦ by simp [hrefused event hevent]
      simp [hgranted, hnone]

end OneTime

end Runvane.Library
