import CoeleoOs.Task.Stretch

/-!
# Confined use of user memory

`Confined sp r l` judges the uses `l` of user pointers in a system call that
returned `r` over the address space `sp`. `Confines` asks the same of a program. It
has one rule for each way of using memory, and every rule is an equivalence, so
a handler's rules together say exactly when it stays confined.
-/

namespace CoeleoOs.Task
open CoeleoOs.Lib CoeleoOs.Mem

/-- Reads lie on user pages and writes on writable user pages. A refused pointer is
not used, nor any pointer after it, and the call returns an error. `r` is `none`
for a call that does not return. -/
def Confined (sp : Vmm.AddrSpace) (r : Option ℕ) : List UserOp → Prop
  | [] => True
  | .read ptr len :: l => Vmm.UserRange sp ptr len ∧ Confined sp r l
  | .write ptr src :: l => Vmm.WritableRange sp ptr src.length ∧ Confined sp r l
  | .refused _ _ :: l => l = [] ∧ r = some err
  | .panicked _ _ :: _ => False

section Logs

variable {sp : Vmm.AddrSpace} {r : Option ℕ} {ptr len : ℕ} {src : Bytes} {l l' : List UserOp}

@[simp] theorem confined_nil : Confined sp r [] ↔ True := Iff.rfl

@[simp] theorem confined_read :
    Confined sp r (.read ptr len :: l) ↔ Vmm.UserRange sp ptr len ∧ Confined sp r l := Iff.rfl

@[simp] theorem confined_write : Confined sp r (.write ptr src :: l) ↔
    Vmm.WritableRange sp ptr src.length ∧ Confined sp r l := Iff.rfl

@[simp] theorem confined_refused :
    Confined sp r (.refused ptr len :: l) ↔ l = [] ∧ r = some err := Iff.rfl

@[simp] theorem confined_panicked : Confined sp r (.panicked ptr len :: l) ↔ False := Iff.rfl

theorem Confined.append_iff (h : Confined sp none l) :
    Confined sp r (l ++ l') ↔ Confined sp r l' := by
  induction l with
  | nil => rfl
  | cons o l ih =>
    cases o with
    | read ptr len => simpa [h.1] using ih h.2
    | write ptr src => simpa [h.1] using ih h.2
    | refused ptr len => simp at h
    | panicked ptr len => exact h.elim

end Logs

/-- `user_slice_ok` comes to a verdict on the range. -/
def Checkable (sp : Vmm.AddrSpace) (ptr len : ℕ) : Prop := Vmm.userSliceOk sp ptr len ≠ none

/-- A range checked over `len` bytes and then written over `n`. -/
def OutOk (sp : Vmm.AddrSpace) (ptr len n : ℕ) : Prop :=
  Checkable sp ptr len ∧ (Vmm.userSliceOk sp ptr len = some true → Vmm.NoReadOnly sp ptr n)

/-- A text of `copy_path`, or of its copies in `sys_net_ping` and `sys_http_get`. -/
def PathOk (sp : Vmm.AddrSpace) (ptr len : ℕ) : Prop :=
  0 < len → len ≤ pathMax → Checkable sp ptr len

def pathAt (e : Env) (ptr len : ℕ) : Option Bytes :=
  if 0 < len ∧ len ≤ pathMax ∧ Vmm.userSliceOk e.space ptr len = some true ∧
      utf8Valid (userBytes e ptr len) then some (userBytes e ptr len)
  else none

theorem checkable_zero {sp : Vmm.AddrSpace} {ptr : ℕ} : Checkable sp ptr 0 := by
  simp [Checkable, Vmm.userSliceOk]

@[simp] theorem outOk_zero {sp : Vmm.AddrSpace} {ptr : ℕ} : OutOk sp ptr 0 0 :=
  ⟨checkable_zero, fun _ a hlo hhi => absurd hhi (by omega)⟩

theorem outOk_iff {sp : Vmm.AddrSpace} {ptr len n : ℕ} (hn : n ≤ len) :
    OutOk sp ptr len n ↔ Checkable sp ptr len ∧
      (Vmm.userSliceOk sp ptr len = some true → Vmm.WritableRange sp ptr n) := by
  unfold OutOk
  refine and_congr_right fun _ => forall_congr' fun hok => ?_
  exact (Vmm.writableRange_iff (Vmm.userSliceOk_userRange hok) hn).symm

/-- What is asked of a program besides its log: the value its result makes the call
return, and a condition on its result and the state it leaves. -/
structure Post (α σ : Type) where
  result : α → Option ℕ
  later : α → σ → Prop

def Post.value {σ : Type} : Post ℕ σ := ⟨some, fun _ _ => True⟩

@[simp] theorem Post.value_later {σ : Type} {v : ℕ} {s : σ} : Post.value.later v s ↔ True := Iff.rfl

section Rules

variable {σ α β : Type} {P : Post α σ} {e : Env} {s : σ} {ptr len : ℕ} {a : α}

def Confines (P : Post α σ) (m : KernM σ α) (e : Env) (s : σ) : Prop :=
  m.wpLog e s (fun l a s' => Confined e.space (P.result a) l ∧ P.later a s')
    (Confined e.space none)

theorem Confines.of_none {m : KernM σ α} (h : Confines P m e s) (hout : m.out e s = none) :
    Confined e.space none (m.log e s) := by
  unfold Confines Eff.wpLog at h
  rwa [hout] at h

theorem Confines.of_some {m : KernM σ α} {s' : σ} (h : Confines P m e s)
    (hout : m.out e s = some (a, s')) :
    Confined e.space (P.result a) (m.log e s) ∧ P.later a s' := by
  unfold Confines Eff.wpLog at h
  rwa [hout] at h

@[simp] theorem confines_pure : Confines P (pure a) e s ↔ P.later a s := by
  simp [Confines]

@[simp] theorem confines_abort : Confines P Eff.abort e s ↔ True := by
  simp [Confines]

@[simp] theorem confines_get {f : σ → KernM σ α} :
    Confines P (Eff.get >>= f) e s ↔ Confines P (f s) e s := by
  simp [Confines]

@[simp] theorem confines_set {s' : σ} {f : Unit → KernM σ α} :
    Confines P (Eff.set s' >>= f) e s ↔ Confines P (f ()) e s' := by
  simp [Confines]

@[simp] theorem confines_ask {f : Env → KernM σ α} :
    Confines P (Eff.ask >>= f) e s ↔ Confines P (f e) e s := by
  simp [Confines]

@[simp] theorem confines_pure_bind {b : β} {f : β → KernM σ α} :
    Confines P (pure b >>= f) e s ↔ Confines P (f b) e s := by
  simp [Confines]

@[simp] theorem confines_ite {c : Prop} [Decidable c] {m n : KernM σ α} :
    Confines P (if c then m else n) e s ↔ if c then Confines P m e s else Confines P n e s := by
  simp [Confines]

theorem confines_copyFromUser {cap : ℕ} {f : Option Bytes → KernM σ α} (hcap : len ≤ cap) :
    Confines P (copyFromUser ptr len cap >>= f) e s ↔
      Vmm.UserRange e.space ptr len ∧ Confines P (f (some (userBytes e ptr len))) e s := by
  simp [Confines, copyFromUser, Nat.not_lt.mpr hcap, userBytes, and_assoc, Eff.wpLog_and]

theorem confines_copyToUser {src : Bytes} {f : Option Unit → KernM σ α} :
    Confines P (copyToUser ptr src >>= f) e s ↔
      Vmm.WritableRange e.space ptr src.length ∧ Confines P (f (some ())) e s := by
  simp [Confines, copyToUser, and_assoc, Eff.wpLog_and]

theorem confines_check {f : Bool → KernM σ α} (hf : f false = pure a) (hr : P.result a = some err)
    (hl : P.later a s) :
    Confines P (userSliceOk ptr len >>= f) e s ↔ Checkable e.space ptr len ∧
      (Vmm.userSliceOk e.space ptr len = some true → Confines P (f true) e s) := by
  unfold Confines userSliceOk Checkable
  rcases hc : Vmm.userSliceOk e.space ptr len with _ | _ | _
  · simp [hc]
  · simp [hc, hf, hr, hl]
  · simp [hc]

theorem confines_copyPath {f : Option Bytes → KernM σ α} (hf : f none = pure a)
    (hr : P.result a = some err) (hl : P.later a s) :
    Confines P (copyPath ptr len >>= f) e s ↔ PathOk e.space ptr len ∧
      ∀ path, pathAt e ptr len = some path → Confines P (f (some path)) e s := by
  unfold Confines copyPath userSliceOk copyFromUser pathAt PathOk Checkable
  by_cases hlen : len = 0 ∨ pathMax < len
  · have hnot : ¬(0 < len ∧ len ≤ pathMax) := by omega
    simp only [hlen, if_true, hf, Eff.wpLog_bind, Eff.wpLog_pure, List.nil_append, confined_nil, hl,
      and_self, true_iff]
    refine ⟨fun hpos hmax => absurd ⟨hpos, hmax⟩ hnot, fun path hpath => ?_⟩
    simp [hnot, ← and_assoc] at hpath
  · obtain ⟨hpos, hmax⟩ : 0 < len ∧ len ≤ pathMax := by omega
    rcases hc : Vmm.userSliceOk e.space ptr len with _ | _ | _
    · simp [hc, hlen, hpos, hmax]
    · simp [hc, hlen, hf, hr, hl, hpos, hmax]
    · have hread := Vmm.userSliceOk_userRange hc
      by_cases hv : utf8Valid (userBytes e ptr len) = true
      · simp_all [userBytes, Nat.not_lt.mpr hmax]
      · simp_all [userBytes, Nat.not_lt.mpr hmax]

end Rules

/-!
A call is a chain of stretches. The caller's page table does not change during a
call; the rest of the machine may be in any state when a call that waited goes on.
-/

namespace Next

def result : Next → Option ℕ
  | .ret v => some v
  | _ => none

/-- After a stretch that left `k`, the call may go on at the point `q` in the state `k'`. -/
def Follows (k : Kernel) (q : Point) (k' : Kernel) : Next → Prop
  | .ret _ => False
  | .exit _ => False
  | .goto p => q = p ∧ k' = k
  | .pollThen p => q = p
  | .irqOpen p => q = p
  | .block _ p => q = p

theorem Follows.result_eq {n : Next} {k k' : Kernel} {q : Point} (h : n.Follows k q k') :
    n.result = none := by
  cases n with
  | ret v => exact h.elim
  | _ => rfl

end Next

/-- The uses of user memory of a call from a point on, and what it returns. A call may
also end where it waits. -/
inductive Call : Point → Env → Kernel → List UserOp → Option ℕ → Prop
  | panic {p : Point} {e : Env} {k : Kernel} : (runPoint p).out e k = none →
      Call p e k ((runPoint p).log e k) none
  | stop {p : Point} {e : Env} {k k' : Kernel} {n : Next} : (runPoint p).out e k = some (n, k') →
      Call p e k ((runPoint p).log e k) n.result
  | more {p q : Point} {e e' : Env} {k k' k'' : Kernel} {n : Next} {l : List UserOp}
      {r : Option ℕ} : (runPoint p).out e k = some (n, k') → n.Follows k' q k'' →
      e'.space = e.space → Call q e' k'' l r → Call p e k ((runPoint p).log e k ++ l) r

def ConfinedCall (p : Point) (e : Env) (k : Kernel) : Prop :=
  ∀ l r, Call p e k l r → Confined e.space r l

def Post.next (I : Point → Env → Kernel → Prop) (sp : Vmm.AddrSpace) : Post Next Kernel :=
  ⟨Next.result, fun n k => ∀ q e' k', n.Follows k q k' → e'.space = sp → I q e' k'⟩

section Calls

variable {p : Point} {e : Env} {k : Kernel} {I : Point → Env → Kernel → Prop}

theorem confinedCall_iff :
    ConfinedCall p e k ↔ Confines (Post.next ConfinedCall e.space) (runPoint p) e k := by
  constructor
  · intro h
    unfold Confines Eff.wpLog
    split
    · rename_i n k' hout
      have hlog := h _ _ (.stop hout)
      refine ⟨hlog, fun q e' k'' hf hsp l r hc => ?_⟩
      rw [hf.result_eq] at hlog
      rw [hsp]
      exact hlog.append_iff.mp (h _ _ (.more hout hf hsp hc))
    · rename_i hout
      exact h _ _ (.panic hout)
  · intro h l r hc
    cases hc with
    | panic hout => exact h.of_none hout
    | stop hout => exact (h.of_some hout).1
    | @more _ _ _ _ _ _ _ n _ _ hout hf hsp hc =>
      obtain ⟨hlog, hlater⟩ := h.of_some hout
      change Confined _ n.result _ at hlog
      rw [hf.result_eq] at hlog
      exact hlog.append_iff.mpr (hsp ▸ hlater _ _ _ hf hsp _ _ hc)

theorem confinedCall_of_next (hI : ∀ p e k, I p e k →
    Confines (Post.next I e.space) (runPoint p) e k) (h : I p e k) : ConfinedCall p e k := by
  intro l r hc
  induction hc with
  | panic hout => exact (hI _ _ _ h).of_none hout
  | stop hout => exact ((hI _ _ _ h).of_some hout).1
  | @more _ _ _ _ _ _ _ n _ _ hout hf hsp _ ih =>
    obtain ⟨hlog, hlater⟩ := (hI _ _ _ h).of_some hout
    change Confined _ n.result _ at hlog
    rw [hf.result_eq] at hlog
    exact hlog.append_iff.mpr (hsp ▸ ih (hlater _ _ _ hf hsp))

end Calls

end CoeleoOs.Task
