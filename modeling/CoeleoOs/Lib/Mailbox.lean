import Mathlib.Data.List.Basic

/-!
# One bounded queue for several owners

A queue holds the messages of all owners, oldest first. A post finds room or is dropped, the
newest message may be renewed in place, an owner takes its oldest messages, and the messages
of an owner may be purged. The ledger keeps every message that found room, in the order of the
posts, with its fate. What is queued and what an owner has received are readings of it.
-/

namespace CoeleoOs.Lib.Mailbox

inductive Fate
  | queued | received | purged
  deriving DecidableEq

abbrev Ledger (α : Type*) := List (α × Fate)

variable {α ι : Type*} [DecidableEq ι] {owner : α → ι}

def post (cap : ℕ) (q : List α) (x : α) : List α := if q.length < cap then q ++ [x] else q

def amend (g : α → Option α) (q : List α) : Option (List α) :=
  q.getLast?.bind fun x => (g x).map fun y => q.dropLast ++ [y]

def collect (owner : α → ι) (p : ι) : ℕ → List α → List α × List α
  | _, [] => ([], [])
  | n, x :: q =>
    if owner x = p ∧ 0 < n then (x :: (collect owner p (n - 1) q).1, (collect owner p (n - 1) q).2)
    else ((collect owner p n q).1, x :: (collect owner p n q).2)

def purge (owner : α → ι) (p : ι) (q : List α) : List α := q.filter fun x => owner x ≠ p

namespace Ledger

def queued (l : Ledger α) : List α := (l.filter fun e => e.2 = .queued).map Prod.fst

def received (owner : α → ι) (p : ι) (l : Ledger α) : List α :=
  (l.filter fun e => e.2 = .received ∧ owner e.1 = p).map Prod.fst

def post (cap : ℕ) (l : Ledger α) (x : α) : Ledger α :=
  if l.queued.length < cap then l ++ [(x, .queued)] else l

def amend (g : α → Option α) : Ledger α → Option (Ledger α)
  | [] => none
  | e :: l =>
    if queued l = [] ∧ e.2 = .queued then (g e.1).map fun y => (y, .queued) :: l
    else (amend g l).map (e :: ·)

def collect (owner : α → ι) (p : ι) : ℕ → Ledger α → Ledger α
  | _, [] => []
  | n, e :: l =>
    if e.2 = .queued ∧ owner e.1 = p ∧ 0 < n then (e.1, .received) :: collect owner p (n - 1) l
    else e :: collect owner p n l

def purge (owner : α → ι) (p : ι) (l : Ledger α) : Ledger α :=
  l.map fun e => if e.2 = .queued ∧ owner e.1 = p then (e.1, .purged) else e

def Ordered (owner : α → ι) (l : Ledger α) : Prop :=
  l.Pairwise fun a b => a.2 = .queued → b.2 = .received → owner a.1 ≠ owner b.1

section Queued

variable {l : Ledger α} {e : α × Fate} {x : α}

@[simp] theorem queued_nil : queued ([] : Ledger α) = [] := rfl

@[simp] theorem queued_cons :
    queued (e :: l) = if e.2 = .queued then e.1 :: queued l else queued l := by
  rw [queued, List.filter_cons]
  split <;> simp_all [queued]

@[simp] theorem queued_append {l' : Ledger α} : queued (l ++ l') = queued l ++ queued l' := by
  simp [queued]

theorem queued_post {cap : ℕ} : queued (post cap l x) = Mailbox.post cap (queued l) x := by
  rw [post, Mailbox.post]
  split
  · simp
  · rfl

theorem queued_amend {g : α → Option α} : (amend g l).map queued = Mailbox.amend g (queued l) := by
  induction l with
  | nil => rfl
  | cons e l ih =>
    rw [amend, queued_cons]
    by_cases he : e.2 = .queued
    · by_cases hl : queued l = []
      · rw [if_pos ⟨hl, he⟩, if_pos he, hl]
        cases hg : g e.1 <;> simp [Mailbox.amend, hg, hl]
      · rw [if_neg (fun h => hl h.1), if_pos he, Option.map_map]
        obtain ⟨y, ys, hq⟩ := List.exists_cons_of_ne_nil hl
        rw [Mailbox.amend, hq, List.getLast?_cons_cons,
          List.dropLast_cons_of_ne_nil (List.cons_ne_nil y ys), ← hq]
        rw [Mailbox.amend] at ih
        have hcomp : queued ∘ (e :: ·) = (e.1 :: ·) ∘ queued := by
          funext l'
          simp [he]
        rw [hcomp, ← Option.map_map, ih]
        cases (queued l).getLast? with
        | none => rfl
        | some z => cases hg : g z <;> simp [hg]
    · rw [if_neg (fun h => he h.2), if_neg he, Option.map_map, ← ih]
      congr 1
      funext l'
      simp [he]

theorem queued_collect {p : ι} {n : ℕ} :
    queued (collect owner p n l) = (Mailbox.collect owner p n (queued l)).2 := by
  induction l generalizing n with
  | nil => cases n <;> rfl
  | cons e l ih =>
    rw [collect, queued_cons]
    by_cases he : e.2 = .queued
    · rw [if_pos he, Mailbox.collect]
      by_cases hp : owner e.1 = p ∧ 0 < n
      · rw [if_pos ⟨he, hp⟩, if_pos hp, queued_cons, if_neg (by simp), ih]
      · rw [if_neg (fun h => hp h.2), if_neg hp, queued_cons, if_pos he, ih]
    · rw [if_neg (fun h => he h.1), if_neg he, queued_cons, if_neg he, ih]

theorem queued_purge {p : ι} : queued (purge owner p l) = Mailbox.purge owner p (queued l) := by
  induction l with
  | nil => rfl
  | cons e l ih =>
    rw [purge, List.map_cons, queued_cons, queued_cons, ← purge, ih]
    by_cases he : e.2 = .queued <;> by_cases hp : owner e.1 = p <;> simp [Mailbox.purge, he, hp]

end Queued

section Received

variable {l : Ledger α} {e : α × Fate} {x : α} {p q : ι}

@[simp] theorem received_cons :
    received owner p (e :: l) = if e.2 = .received ∧ owner e.1 = p then e.1 :: received owner p l
      else received owner p l := by
  rw [received, List.filter_cons]
  split <;> simp_all [received]

theorem received_post {cap : ℕ} : received owner p (post cap l x) = received owner p l := by
  rw [post]
  split <;> simp [received]

theorem received_amend {g : α → Option α} {l' : Ledger α} (h : amend g l = some l') :
    received owner p l' = received owner p l := by
  induction l generalizing l' with
  | nil => cases h
  | cons e l ih =>
    rw [amend] at h
    split at h
    · next hlast =>
      obtain ⟨y, -, rfl⟩ := Option.map_eq_some_iff.mp h
      simp [hlast.2]
    · obtain ⟨l₁, hl₁, rfl⟩ := Option.map_eq_some_iff.mp h
      rw [received_cons, received_cons, ih hl₁]

theorem received_purge : received owner q (purge owner p l) = received owner q l := by
  induction l with
  | nil => rfl
  | cons e l ih =>
    rw [purge, List.map_cons, received_cons, received_cons, ← purge, ih]
    by_cases he : e.2 = .queued ∧ owner e.1 = p
    · simp [he]
    · rw [if_neg he]

omit [DecidableEq ι] in
theorem Ordered.tail (h : Ordered owner (e :: l)) : Ordered owner l := (List.pairwise_cons.mp h).2

theorem Ordered.received_eq_nil (h : Ordered owner (e :: l)) (he : e.2 = .queued) :
    received owner (owner e.1) l = [] := by
  rw [received, List.map_eq_nil_iff, List.filter_eq_nil_iff]
  intro b hb hrec
  rw [decide_eq_true_iff] at hrec
  exact (List.pairwise_cons.mp h).1 b hb he hrec.1 hrec.2.symm

theorem received_cons_queued (he : e.2 = .queued) :
    received owner p (e :: l) = received owner p l := by
  rw [received_cons, if_neg fun h => by simp [he] at h]

theorem received_collect {n : ℕ} (h : Ordered owner l) :
    received owner p (collect owner p n l) = received owner p l ++
      (Mailbox.collect owner p n (queued l)).1 := by
  induction l generalizing n with
  | nil => cases n <;> rfl
  | cons e l ih =>
    rw [collect, queued_cons]
    by_cases he : e.2 = .queued
    · rw [received_cons_queued he, if_pos he, Mailbox.collect]
      by_cases hp : owner e.1 = p ∧ 0 < n
      · have hnone := h.received_eq_nil he
        rw [hp.1] at hnone
        rw [if_pos ⟨he, hp⟩, if_pos hp, received_cons, if_pos ⟨rfl, hp.1⟩, ih h.tail, hnone]
        rfl
      · rw [if_neg (fun h => hp h.2), if_neg hp, received_cons_queued he, ih h.tail]
    · rw [if_neg (fun h => he h.1), if_neg he, received_cons, received_cons, ih h.tail]
      split <;> rfl

theorem received_collect_of_ne {n : ℕ} (hq : q ≠ p) :
    received owner q (collect owner p n l) = received owner q l := by
  induction l generalizing n with
  | nil => cases n <;> rfl
  | cons e l ih =>
    rw [collect]
    split
    · next h =>
      rw [received_cons, received_cons, if_neg (fun h' => hq (h'.2.symm.trans h.2.1)),
        if_neg (fun h' => by simp [h.1] at h'), ih]
    · rw [received_cons, received_cons, ih]

end Received

section Order

variable {l : Ledger α} {p : ι} {n : ℕ}

theorem mem_collect {b : α × Fate} (h : b ∈ collect owner p n l) : b ∈ l ∨ owner b.1 = p := by
  induction l generalizing n with
  | nil => cases n <;> cases h
  | cons e l ih =>
    rw [collect] at h
    split at h
    · next hp =>
      rcases List.mem_cons.mp h with rfl | h
      · exact .inr hp.2.1
      · exact (ih h).imp_left (List.mem_cons_of_mem e)
    · rcases List.mem_cons.mp h with rfl | h
      · exact .inl List.mem_cons_self
      · exact (ih h).imp_left (List.mem_cons_of_mem e)

theorem collect_zero : collect owner p 0 l = l := by
  induction l with
  | nil => rfl
  | cons e l ih => rw [collect, if_neg fun h => absurd h.2.2 (Nat.lt_irrefl 0), ih]

omit [DecidableEq ι] in
theorem Ordered.post {cap : ℕ} {x : α} (h : Ordered owner l) : Ordered owner (post cap l x) := by
  rw [Ledger.post]
  split
  · refine List.pairwise_append.mpr ⟨h, List.pairwise_singleton _ _, fun a _ b hb _ hrec => ?_⟩
    rw [List.mem_singleton.mp hb] at hrec
    cases hrec
  · exact h

theorem Ordered.amend {g : α → Option α} {l' : Ledger α}
    (hg : ∀ x y, g x = some y → owner y = owner x) (h : Ordered owner l)
    (hl' : amend g l = some l') : Ordered owner l' := by
  induction l generalizing l' with
  | nil => cases hl'
  | cons e l ih =>
    rw [Ledger.amend] at hl'
    split at hl'
    · next hlast =>
      obtain ⟨y, hy, rfl⟩ := Option.map_eq_some_iff.mp hl'
      refine List.pairwise_cons.mpr ⟨fun b hb _ hrec => ?_, h.tail⟩
      rw [hg e.1 y hy]
      exact (List.pairwise_cons.mp h).1 b hb hlast.2 hrec
    · obtain ⟨l₁, hl₁, rfl⟩ := Option.map_eq_some_iff.mp hl'
      refine List.pairwise_cons.mpr ⟨fun b hb he hrec heq => ?_, ih h.tail hl₁⟩
      have hnone := h.received_eq_nil he
      rw [← received_amend hl₁, received, List.map_eq_nil_iff, List.filter_eq_nil_iff] at hnone
      exact hnone b hb (decide_eq_true ⟨hrec, heq.symm⟩)

theorem Ordered.collect (h : Ordered owner l) : Ordered owner (collect owner p n l) := by
  induction l generalizing n with
  | nil => cases n <;> exact List.Pairwise.nil
  | cons e l ih =>
    rw [Ledger.collect]
    split
    · exact List.pairwise_cons.mpr ⟨fun b _ hq _ => absurd hq (by simp), ih h.tail⟩
    · next hkeep =>
      refine List.pairwise_cons.mpr ⟨fun b hb he hrec => ?_, ih h.tail⟩
      have hold : b ∈ l → owner e.1 ≠ owner b.1 :=
        fun hb => (List.pairwise_cons.mp h).1 b hb he hrec
      by_cases hn : n = 0
      · rw [hn, collect_zero] at hb
        exact hold hb
      · rcases mem_collect hb with hb | hb
        · exact hold hb
        · rw [hb]
          exact fun hp => hkeep ⟨he, hp, Nat.pos_of_ne_zero hn⟩

theorem Ordered.purge (h : Ordered owner l) : Ordered owner (purge owner p l) := by
  refine List.Pairwise.map _ (fun a b hab hq hrec => ?_) h
  split at hrec
  · cases hrec
  next hb =>
  split at hq
  · cases hq
  next ha =>
  rw [if_neg ha, if_neg hb]
  exact hab hq hrec

end Order

end Ledger

/-- What may happen to a queue. A renewed message keeps its owner. -/
inductive Act (owner : α → ι) where
  | post (x : α)
  | renew (g : α → Option α) (keeps : ∀ x y, g x = some y → owner y = owner x) (x : α)
  | collect (p : ι) (n : ℕ)
  | purge (p : ι)

namespace Act

variable (cap : ℕ)

def queue (a : Act owner) (q : List α) : List α :=
  match a with
  | post x => Mailbox.post cap q x
  | renew g _ x => (amend g q).getD (Mailbox.post cap q x)
  | collect p n => (Mailbox.collect owner p n q).2
  | purge p => Mailbox.purge owner p q

def taken (p : ι) (a : Act owner) (q : List α) : List α :=
  match a with
  | collect p' n => if p = p' then (Mailbox.collect owner p' n q).1 else []
  | _ => []

def ledger (a : Act owner) (l : Ledger α) : Ledger α :=
  match a with
  | post x => Ledger.post cap l x
  | renew g _ x => (Ledger.amend g l).getD (Ledger.post cap l x)
  | collect p n => Ledger.collect owner p n l
  | purge p => Ledger.purge owner p l

variable {cap} {a : Act owner} {l : Ledger α}

theorem ordered_ledger (h : l.Ordered owner) : (a.ledger cap l).Ordered owner := by
  cases a with
  | post x => exact h.post
  | renew g keeps x =>
    rw [ledger]
    cases hg : l.amend g with
    | none => exact h.post
    | some l' => exact h.amend keeps hg
  | collect p n => exact h.collect
  | purge p => exact h.purge

theorem queued_ledger : (a.ledger cap l).queued = a.queue cap l.queued := by
  cases a with
  | post x => exact Ledger.queued_post
  | renew g keeps x =>
    have hg := Ledger.queued_amend (g := g) (l := l)
    rw [ledger, queue, ← hg]
    cases l.amend g with
    | none => exact Ledger.queued_post
    | some l' => rfl
  | collect p n => exact Ledger.queued_collect
  | purge p => exact Ledger.queued_purge

theorem received_ledger (h : l.Ordered owner) (p : ι) :
    (a.ledger cap l).received owner p = l.received owner p ++ a.taken p l.queued := by
  cases a with
  | post x => exact Ledger.received_post.trans (List.append_nil _).symm
  | renew g keeps x =>
    refine Eq.trans ?_ (List.append_nil _).symm
    rw [ledger]
    cases hg : l.amend g with
    | none => exact Ledger.received_post
    | some l' => exact Ledger.received_amend hg
  | collect p' n =>
    rw [ledger, taken]
    by_cases hp : p = p'
    · rw [if_pos hp, ← hp]
      exact Ledger.received_collect h
    · rw [if_neg hp, List.append_nil]
      exact Ledger.received_collect_of_ne hp
  | purge p' => exact Ledger.received_purge.trans (List.append_nil _).symm

end Act

theorem collect_others {p p' : ι} (hp : p' ≠ p) (n : ℕ) (q : List α) :
    ((collect owner p n q).2.filter fun x => owner x = p') = q.filter fun x => owner x = p' := by
  induction q generalizing n with
  | nil => cases n <;> rfl
  | cons x q ih =>
    rw [collect]
    split
    · next h =>
      have hx : ¬ owner x = p' := fun hx => hp (hx.symm.trans h.1)
      rw [ih, List.filter_cons_of_neg (by simpa using hx)]
    · rw [List.filter_cons, List.filter_cons, ih]

end CoeleoOs.Lib.Mailbox
