import CoeleoOs.Sh.Complete
import CoeleoOs.Sh.Files

/-!
# Reading a directory

A directory is listed when it is opened, and each `readdir` passes on one entry in a record of
64 bytes. The calls of one descriptor among those of all others, of any process, give the
entries in order; the record holds 62 bytes of the name.
-/

namespace CoeleoOs.Task

def Kernel.fdOf (k : Kernel) (i : Slot) (fd : ℕ) : Option OpenFd :=
  (k.sched.procs i).bind (·.fds.getMut fd)

def Kernel.switched (k : Kernel) (i : Slot) : Kernel :=
  { k with sched := { k.sched with current := some i } }

end CoeleoOs.Task

namespace CoeleoOs.Sh.Readdir
open CoeleoOs.Lib CoeleoOs.Mem CoeleoOs.Task CoeleoOs.Sh.Complete

structure Call where
  proc : Slot
  env : Env
  fd : ℕ
  buf : ℕ
  len : ℕ

structure Answer where
  call : Call
  value : ℕ
  ops : List UserOp

/-- The buffer is large enough and open to the process. -/
def Call.Good (c : Call) : Prop :=
  direntSize ≤ c.len ∧ Vmm.userSliceOk c.env.space c.buf direntSize = some true

def Answer.record (a : Answer) : Option Bytes :=
  match a.ops with
  | [.write _ src] => some src
  | _ => none

/-- Calls one after the other, and what each of them returned. -/
inductive Run : Kernel → List Answer → Kernel → Prop
  | nil (k : Kernel) : Run k [] k
  | cons {k k₁ k' : Kernel} {v : ℕ} {as : List Answer} (c : Call) :
      (sysReaddir c.fd c.buf c.len).out c.env (k.switched c.proc) = some (v, k₁) → Run k₁ as k' →
      Run k (⟨c, v, (sysReaddir c.fd c.buf c.len).log c.env (k.switched c.proc)⟩ :: as) k'

section Step

variable {k k' : Kernel} {i j : Slot} {fd fd' buf len n : ℕ} {e : Env} {ents : List DirEnt}

@[simp] theorem fdOf_switched (k : Kernel) (i j : Slot) (fd : ℕ) : (k.switched j).fdOf i fd =
    k.fdOf i fd := rfl

theorem fdOf_put {of of' : OpenFd} (h : k.fdOf i fd = some of) :
    ((k.switched i).withFds fun t => ((), t.put fd of')).2.fdOf i fd = some of' := by
  obtain ⟨p, hp, hget⟩ := Option.bind_eq_some_iff.mp h
  have hp' : (k.switched i).sched.procs i = some p := hp
  rw [Kernel.withFds, show (k.switched i).sched.current = some i from rfl]
  dsimp only
  rw [hp']
  simp [Kernel.fdOf, FdTable.getMut_put_self hget]

theorem fdOf_put_of_ne {of' : OpenFd} (hne : ¬(j = i ∧ fd' = fd)) :
    ((k.switched j).withFds fun t => ((), t.put fd' of')).2.fdOf i fd = k.fdOf i fd := by
  rcases withFds_cases (k.switched j) (fun t => ((), t.put fd' of'))
      with ⟨-, hw⟩ | ⟨j', p, hc, hp, hw⟩
  · rw [hw]
    rfl
  · rw [hw]
    obtain rfl : j = j' := Option.some.inj hc
    have hp' : k.sched.procs j = some p := hp
    by_cases hij : i = j
    · have hfd : fd ≠ fd' := fun h => hne ⟨hij.symm, h.symm⟩
      rw [hij, Kernel.fdOf, Kernel.fdOf, hp']
      simp [FdTable.getMut_put_of_ne hfd]
    · rw [Kernel.fdOf, Sched.setProc_of_ne _ hij]
      rfl

theorem sysReaddir_other (hne : ¬(j = i ∧ fd' = fd)) :
    (sysReaddir fd' buf len).wp e (k.switched j) fun _ k' => k'.fdOf i fd = k.fdOf i fd := by
  unfold sysReaddir
  simp only [Eff.wp_ite, Eff.wp_pure, Eff.wp_bind]
  split
  · rfl
  · apply userSliceOk_wp
    intro b
    split
    · apply getFd_wp
      split
      · rename_i index ents hfd
        cases ents[index]? with
        | none => exact Eff.wp_pure.mpr rfl
        | some ent =>
          simp only [Eff.wp_bind]
          apply withFds_wp
          apply copyToUser_wp
          rw [Eff.wp_pure]
          exact fdOf_put_of_ne hne
      · exact Eff.wp_pure.mpr rfl
    · rfl

theorem sysOpen_lists {path : Bytes} {ptr flags v : ℕ} (hpath : pathAt e ptr len = some path)
    (hlist : e.list path = .ok ents) (hout : (sysOpen ptr len flags).out e (k.switched i) =
      some (v, k')) (hv : v ≠ err) : k'.fdOf i v = some (.dir 0 ents) := by
  rw [sysOpen, Eff.out_bind, out_copyPath (pathOk_of_pathAt hpath), hpath] at hout
  simp only [Option.bind_some, Eff.out_ite, Eff.out_bind, Eff.out_ask, hlist, Eff.out_pure] at hout
  have herr : some (err, k.switched i) ≠ some (v, k') :=
    fun h => hv (congrArg Prod.fst (Option.some.inj h)).symm
  split at hout
  · exact absurd hout herr
  · split at hout
    · exact absurd hout herr
    · rw [out_allocFd] at hout
      obtain ⟨hfd, rfl⟩ := Prod.mk.inj (Option.some.inj hout)
      rcases withFds_cases (k.switched i) (fun t => t.alloc (.dir 0 ents))
          with ⟨-, hw⟩ | ⟨j, p, hc, -, hw⟩
      · rw [hw] at hfd
        exact absurd hfd.symm hv
      · obtain rfl : i = j := Option.some.inj hc
        rw [hw] at hfd ⊢
        have hnew : (p.fds.alloc (.dir 0 ents)).1 = v := hfd
        obtain ⟨-, hget, -⟩ :=
          FdTable.getMut_alloc (Prod.ext hnew rfl : p.fds.alloc (.dir 0 ents) = (v, _)) hv
        rw [Kernel.fdOf, Sched.setProc_self, Option.bind_some]
        exact hget

def answerAt (ents : List DirEnt) (buf n : ℕ) : ℕ × List UserOp :=
  match ents[n]? with
  | some ent => (1, [.write buf (packDirent ent)])
  | none => (0, [])

theorem sysReaddir_own (hlen : direntSize ≤ len)
    (hbuf : Vmm.userSliceOk e.space buf direntSize = some true)
    (hfd : k.fdOf i fd = some (.dir (min n ents.length) ents)) :
    (sysReaddir fd buf len).wpLog e (k.switched i) (fun l v k' => (v, l) = answerAt ents buf n ∧
      k'.fdOf i fd = some (.dir (min (n + 1) ents.length) ents)) fun _ => False := by
  have hget :
      (getFd fd).out e (k.switched i) = some (some (.dir (min n ents.length) ents), k.switched i) ∧
      (getFd fd).log e (k.switched i) = [] := by
    obtain ⟨p, hp, hdir⟩ := Option.bind_eq_some_iff.mp hfd
    have hp' : (k.switched i).sched.procs i = some p := hp
    have hw : (k.switched i).withFds (fun t => (t.getMut fd, t)) =
        (some (some (.dir (min n ents.length) ents)), k.switched i) := by
      rw [Kernel.withFds, show (k.switched i).sched.current = some i from rfl]
      dsimp only
      rw [hp']
      dsimp only
      rw [hdir, Sched.setProc_eq_self hp']
    rw [getFd, withFds]
    simp [hw]
  have hindex : ents[min n ents.length]? = ents[n]? := by
    by_cases hn : n < ents.length
    · rw [Nat.min_eq_left (Nat.le_of_lt hn)]
    · rw [List.getElem?_eq_none (by omega), List.getElem?_eq_none (by omega)]
  have hslice : (Task.userSliceOk buf direntSize).out e (k.switched i) = some (true, k.switched i) ∧
      (Task.userSliceOk buf direntSize).log e (k.switched i) = [] := by
    rw [Task.userSliceOk, Eff.out_bind, Eff.log_bind, Eff.out_ask, Eff.log_ask]
    dsimp only [Option.bind_some, Option.elim_some]
    rw [hbuf]
    exact ⟨rfl, rfl⟩
  unfold sysReaddir
  rw [if_neg (Nat.not_lt.mpr hlen), Eff.wpLog_bind, Eff.wpLog_of_out hslice.1 hslice.2, if_pos rfl,
    Eff.wpLog_bind, Eff.wpLog_of_out hget.1 hget.2, answerAt, ← hindex]
  dsimp only
  cases hent : ents[min n ents.length]? with
  | none =>
    have hle := List.getElem?_eq_none_iff.mp hent
    refine Eff.wpLog_pure.mpr ⟨rfl, ?_⟩
    rw [fdOf_switched, hfd, Nat.min_eq_right (by omega), Nat.min_eq_right (by omega)]
  | some ent =>
    have hlt := (List.getElem?_eq_some_iff.mp hent).1
    have hnext : min n ents.length + 1 = min (n + 1) ents.length := by omega
    rw [Eff.wpLog_bind]
    simp only [withFds, copyToUser, Eff.wpLog_bind, Eff.wpLog_get, Eff.wpLog_set, Eff.wpLog_tell,
      Eff.wpLog_pure]
    refine ⟨rfl, ?_⟩
    rw [hnext]
    exact fdOf_put hfd

end Step

section Runs

def own (i : Slot) (fd : ℕ) (as : List Answer) : List Answer :=
  as.filter fun a => a.call.proc = i ∧ a.call.fd = fd

variable {k k' : Kernel} {i : Slot} {fd n : ℕ} {as : List Answer} {ents : List DirEnt} {a : Answer}
    {e : DirEnt}

theorem run_own (h : Run k as k') (hfd : k.fdOf i fd = some (.dir (min n ents.length) ents))
    (hgood : ∀ a ∈ own i fd as, a.call.Good) {j : ℕ} (ha : (own i fd as)[j]? = some a) :
    (a.value, a.ops) = answerAt ents a.call.buf (n + j) := by
  induction h generalizing n j with
  | nil => cases ha
  | @cons k k₁ k' v as c hout hrun ih =>
    by_cases hown : c.proc = i ∧ c.fd = fd
    · have hfilter :
          own i fd (⟨c, v, (sysReaddir c.fd c.buf c.len).log c.env (k.switched c.proc)⟩ :: as) =
          ⟨c, v, (sysReaddir c.fd c.buf c.len).log c.env (k.switched c.proc)⟩ :: own i fd as :=
        List.filter_cons_of_pos (by simpa using hown)
      rw [hfilter] at hgood ha
      obtain ⟨hcall, hrest⟩ := List.forall_mem_cons.mp hgood
      obtain ⟨rfl, rfl⟩ := hown
      have hspec := sysReaddir_own hcall.1 hcall.2 hfd
      rw [Eff.wpLog_of_out hout rfl] at hspec
      cases j with
      | zero =>
        cases ha
        exact hspec.1
      | succ j =>
        rw [Nat.add_comm j 1, ← Nat.add_assoc]
        exact ih hspec.2 hrest ha
    · have hfilter :
          own i fd (⟨c, v, (sysReaddir c.fd c.buf c.len).log c.env (k.switched c.proc)⟩ :: as) =
            own i fd as :=
        List.filter_cons_of_neg (by simpa using hown)
      rw [hfilter] at hgood ha
      have hkept : k₁.fdOf i fd = k.fdOf i fd := sysReaddir_other hown _ _ hout
      exact ih (hkept.trans hfd) hgood ha

structure Passes (e : DirEnt) (r : Bytes) : Prop where
  name : direntName r = e.name
  isDir : direntIsDir r = e.isDir
  path : ∀ dir, Fs.resolve dir (direntName r) = Fs.resolve dir e.name

theorem length_direntName_packDirent (e : DirEnt) :
    (direntName (packDirent e)).length ≤ 62 ∧ 0 ∉ direntName (packDirent e) := by
  have htake : ((packDirent e).drop 1).takeWhile (· ≠ 0) = (e.name.take 62).takeWhile (· ≠ 0) := by
    change (e.name.take 62 ++ List.replicate (63 - (e.name.take 62).length) 0).takeWhile (· ≠ 0) = _
    have hlen : (e.name.take 62).length ≤ 62 := List.length_take_le _ _
    obtain ⟨m, hm⟩ : ∃ m, 63 - (e.name.take 62).length = m + 1 :=
      ⟨62 - (e.name.take 62).length, by omega⟩
    rw [hm, List.replicate_succ, List.takeWhile_append]
    split
    · next hall => simpa using (List.takeWhile_sublist _).eq_of_length hall |>.symm
    · rfl
  rw [direntName, htake]
  split
  · refine ⟨(List.takeWhile_sublist _).length_le.trans (List.length_take_le _ _), fun hmem => ?_⟩
    exact absurd (List.mem_takeWhile_imp hmem) (by simp)
  · exact ⟨Nat.zero_le _, List.not_mem_nil⟩

theorem passes_iff (hutf : utf8Valid e.name = true) :
    Passes e (packDirent e) ↔ e.name.length ≤ 62 ∧ 0 ∉ e.name := by
  constructor
  · intro h
    rw [← h.name]
    exact length_direntName_packDirent e
  · rintro ⟨hlen, hnul⟩
    have hname := direntName_packDirent hlen hnul hutf
    exact ⟨hname, direntIsDir_packDirent e, fun dir => by rw [hname]⟩

/-- The call returns the entry, or 0 behind the last one. -/
def Returns (a : Answer) : Option DirEnt → Prop
  | some e => a.value = 1 ∧ ∃ r, a.record = some r ∧ Passes e r
  | none => a.value = 0

/-- In every run the calls of a directory return its entries, each once and in order, and then 0
for ever, exactly if the names that they come to fit the record. -/
theorem readdir_enumerates_iff (h : Run k as k') (hfd : k.fdOf i fd = some (.dir 0 ents))
    (hgood : ∀ a ∈ own i fd as, a.call.Good) (hutf : ∀ e ∈ ents, utf8Valid e.name = true) :
    (∀ (j : ℕ) (a : Answer), (own i fd as)[j]? = some a → Returns a (ents[j]?)) ↔
      ∀ e ∈ ents.take (own i fd as).length, e.name.length ≤ 62 ∧ 0 ∉ e.name := by
  have hanswer : ∀ {j : ℕ} {a : Answer}, (own i fd as)[j]? = some a →
      (a.value, a.ops) = answerAt ents a.call.buf j := by
    intro j a ha
    have hown := run_own (n := 0) h (by rwa [Nat.zero_min]) hgood ha
    rwa [Nat.zero_add] at hown
  have hreturns : ∀ {j : ℕ} {a : Answer} {e : DirEnt}, (own i fd as)[j]? = some a →
      ents[j]? = some e → (Returns a (some e) ↔ Passes e (packDirent e)) := by
    intro j a e ha he
    have hans := hanswer ha
    rw [answerAt, he] at hans
    obtain ⟨hvalue, hops⟩ := Prod.mk.inj hans
    rw [Returns, Answer.record, hops]
    simp [hvalue]
  constructor
  · intro hall e he
    obtain ⟨j, hj⟩ := List.mem_iff_getElem?.mp he
    rw [List.getElem?_take] at hj
    split at hj
    swap
    · cases hj
    rename_i hlt
    have ha := List.getElem?_eq_getElem hlt
    have hret := hall j _ ha
    rw [hj, hreturns ha hj] at hret
    exact (passes_iff (hutf e (List.mem_of_getElem? hj))).mp hret
  · intro hfit j a ha
    cases he : ents[j]? with
    | none =>
      have hans := hanswer ha
      rw [answerAt, he] at hans
      exact (Prod.mk.inj hans).1
    | some e =>
      have hlt := (List.getElem?_eq_some_iff.mp ha).1
      have hmem : e ∈ ents.take (own i fd as).length :=
        List.mem_iff_getElem?.mpr ⟨j, by rw [List.getElem?_take_of_lt hlt, he]⟩
      exact (hreturns ha he).mpr ((passes_iff (hutf e (List.mem_of_getElem? he))).mpr (hfit e hmem))

end Runs

section Samples

def listing (ents : List DirEnt) : Kernel :=
  { Kernel.init true with
    sched :=
      Sched.init.setProc 0 (newPcb 1 0 Sample.image [0x73, 0x68] Sample.argv
        (FdTable.newStdio.put 3 (.dir 0 ents))) }

def sampleCall (fd : ℕ) : Call := ⟨0, Sample.env [], fd, 0x2000, 64⟩

def readdirs : List Call → Kernel → Option (List Answer × Kernel)
  | [], k => some ([], k)
  | c :: cs, k =>
    match (sysReaddir c.fd c.buf c.len).out c.env (k.switched c.proc) with
    | none => none
    | some (v, k₁) =>
      (readdirs cs k₁).map fun r =>
        (⟨c, v, (sysReaddir c.fd c.buf c.len).log c.env (k.switched c.proc)⟩ :: r.1, r.2)

theorem run_readdirs {cs : List Call} {k k' : Kernel} {as : List Answer}
    (h : readdirs cs k = some (as, k')) : Run k as k' := by
  induction cs generalizing k as with
  | nil =>
    cases h
    exact .nil _
  | cons c cs ih =>
    rw [readdirs] at h
    split at h
    · cases h
    · next v k₁ hout =>
      obtain ⟨⟨as', k''⟩, hrest, heq⟩ := Option.map_eq_some_iff.mp h
      cases heq
      exact .cons c hout (ih hrest)

theorem sampleCall_good : (sampleCall 3).Good := ⟨Nat.le_refl _, by decide⟩

def twoEntries : List DirEnt := [⟨[0x61], false⟩, ⟨[0x62], true⟩]

theorem two_entries_enumerated :
    ∃ as k', Run (listing twoEntries) as k' ∧ (own 0 3 as).map Answer.value = [1, 1, 0] ∧
    ((∀ (j : ℕ) (a : Answer), (own 0 3 as)[j]? = some a → Returns a (twoEntries[j]?)) ↔
      ∀ e ∈ twoEntries.take (own 0 3 as).length, e.name.length ≤ 62 ∧ 0 ∉ e.name) := by
  obtain ⟨⟨as, k'⟩, hrun, hown⟩ :
      ∃ r, readdirs [sampleCall 3, sampleCall 5, sampleCall 3, sampleCall 3] (listing twoEntries) =
        some r ∧ (own 0 3 r.1).map Answer.value = [1, 1, 0] ∧ (own 0 3 r.1).map Answer.call =
          [sampleCall 3, sampleCall 3, sampleCall 3] :=
    ⟨_, rfl, rfl, rfl⟩
  refine ⟨as, k', run_readdirs hrun, hown.1, readdir_enumerates_iff (run_readdirs hrun) rfl
    (fun a ha => ?_) (by decide)⟩
  have hcall := List.mem_map_of_mem (f := Answer.call) ha
  rw [hown.2] at hcall
  simp only [List.mem_cons, List.not_mem_nil, or_false, or_self] at hcall
  rw [hcall]
  exact sampleCall_good

def accents : DirEnt := ⟨0x61 :: (List.replicate 31 [0xC3, 0xA9]).flatten, false⟩

/-- The name is cut within its last letter, and the program gets the empty name. -/
theorem accents_lost : ∃ as k', Run (listing [accents]) as k' ∧ utf8Valid accents.name = true ∧
    (own 0 3 as).map (fun a => a.record.map direntName) = [some []] ∧
    ¬∀ (j : ℕ) (a : Answer), (own 0 3 as)[j]? = some a → Returns a ([accents][j]?) := by
  obtain ⟨⟨as, k'⟩, hrun, hown⟩ : ∃ r, readdirs [sampleCall 3] (listing [accents]) = some r ∧
      (own 0 3 r.1).map (fun a => a.record.map direntName) = [some []] := ⟨_, rfl, by decide⟩
  refine ⟨as, k', run_readdirs hrun, by decide, hown, fun hall => ?_⟩
  obtain ⟨a, as', hcons, hhead, -⟩ := List.map_eq_cons_iff.mp hown
  obtain ⟨-, r, hr, hpass⟩ := hall 0 a (by rw [hcons]; rfl)
  rw [hr] at hhead
  have hname := hpass.name.symm.trans (Option.some.inj hhead)
  exact absurd hname (by decide)

end Samples

end CoeleoOs.Sh.Readdir
