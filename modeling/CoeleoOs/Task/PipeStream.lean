import CoeleoOs.Task.Blocked
import CoeleoOs.Task.PipeData
import CoeleoOs.Task.PipeRefs

/-!
# Pipes are byte streams

`stream id ts` collects what the writes of a run have put into a pipe since it
was opened, and what its reads have stored in user memory. The difference is
always the content of the ring.
-/

namespace CoeleoOs.Task
open CoeleoOs.Lib CoeleoOs.Lib.Machine

def UserOp.written : UserOp → Bytes
  | .write _ src => src
  | _ => []

/-- The bytes that a read of pipe `id` stores in user memory in the step. -/
def delivered (id : PipeId) (t : Trans Sys Act) : Bytes :=
  match t.pre.mode, t.act with
  | .kernel ⟨.readPipe j buf n, _⟩, .run e =>
    if j = id then ((runPoint (.readPipe j buf n)).log e t.pre.k).flatMap UserOp.written else []
  | _, _ => []

def accepted (id : PipeId) (t : Trans Sys Act) : Bytes :=
  match t.pre.mode, t.act with
  | .kernel ⟨.writePipe j buf n, _⟩, .run e =>
    match (runPoint (.writePipe j buf n)).out e t.pre.k with
    | some (.ret r, _) => if j = id ∧ r ≠ err then (userBytes e buf n).take r else []
    | _ => []
  | _, _ => []

structure Stream where
  accepted : Bytes
  delivered : Bytes

/-- What went through pipe `id` since it was last opened. -/
def stream (id : PipeId) (ts : List (Trans Sys Act)) : Stream :=
  ts.foldl (fun st t =>
    if !(t.pre.k.pipes id).used && (t.post.k.pipes id).used then ⟨[], []⟩
    else ⟨st.accepted ++ accepted id t, st.delivered ++ delivered id t⟩) ⟨[], []⟩

def lengthOn (w : Bool) (id : PipeId) (k : Kernel) (e : Env) : Point → Option ℕ
  | .readPipe j _ n => if j = id ∧ w = false then some n else none
  | .writePipe j _ n => if j = id ∧ w = true then some n else none
  | .dispatch num fd buf len =>
    if num.toNat = (if w then 2 else 4) ∧ len.toNat ≤ ioMax ∧
        (k.sched.currentPcb.bind (·.fds.getMut fd.toNat)) = some (.pipe id w) ∧
        Mem.Vmm.userSliceOk e.space buf.toNat len.toNat = some true then some len.toNat
    else none
  | _ => none

/-- The length and the result of a call on pipe `id` that returns in the step. -/
def pipeReturn (w : Bool) (id : PipeId) (t : Trans Sys Act) : Option (ℕ × ℕ) :=
  match t.pre.mode, t.act with
  | .kernel ⟨p, _⟩, .run e =>
    match lengthOn w id t.pre.k e p, (runPoint p).out e t.pre.k with
    | some n, some (.ret v, _) => some (n, v)
    | _, _ => none
  | _, _ => none

structure PipesSane (ps : Pipes) : Prop where
  cap : ∀ id, (ps id).len ≤ pipeCap
  released : ∀ id, (ps id).used = false → (ps id).len = 0

inductive Flow (id : PipeId) (t : Trans Sys Act) : Prop
  | released : (t.post.k.pipes id).used = false → (t.post.k.pipes id).len = 0 → Flow id t
  | opened : (t.pre.k.pipes id).used = false → t.post.k.pipes id = Pipe.fresh → Flow id t
  | moved : (t.post.k.pipes id).used = (t.pre.k.pipes id).used →
      (t.pre.k.pipes id).contents ++ accepted id t =
        delivered id t ++ (t.post.k.pipes id).contents →
      (t.post.k.pipes id).len ≤ pipeCap →
      ((t.pre.k.pipes id).used = false → (t.post.k.pipes id).len = (t.pre.k.pipes id).len) →
      Flow id t

section Steps

variable {t : Trans Sys Act} {id : PipeId}

theorem flow_same (hcap : (t.pre.k.pipes id).len ≤ pipeCap)
    (hsame : t.post.k.pipes id = t.pre.k.pipes id) (ha : accepted id t = [])
    (hd : delivered id t = []) : Flow id t := by
  refine .moved (by rw [hsame]) ?_ (by rw [hsame]; exact hcap) fun _ => by rw [hsame]
  rw [hsame, ha, hd, List.append_nil, List.nil_append]

theorem flow_read (hs : PipesSane t.pre.k.pipes) {j : PipeId} {buf n : ℕ} {rsp : UInt64} {e : Env}
    (hmode : t.pre.mode = .kernel ⟨.readPipe j buf n, rsp⟩) (hact : t.act = .run e)
    (hpost : t.post.k.pipes = (Pipe.read t.pre.k.pipes j n).2) : Flow id t := by
  have ha : accepted id t = [] := by simp [accepted, hmode, hact]
  by_cases hj : j = id
  · subst hj
    have hd :
        ∀ r, (Pipe.read t.pre.k.pipes j n).1 = r → (∀ got, r = .data got → delivered j t = got) ∧
        ((∀ got, r ≠ .data got) → delivered j t = []) := by
      rintro r rfl
      simp only [delivered, hmode, hact, if_true, readPipe_log]
      cases (Pipe.read t.pre.k.pipes j n).1 <;> simp [UserOp.written]
    cases hr : (Pipe.read t.pre.k.pipes j n).1 with
    | data got =>
      obtain ⟨hu, hc, hl, hfree, -⟩ := Pipe.read_data hr
      refine .moved (by rw [hpost, hu]) ?_ (by rw [hpost]; exact hl.trans (hs.cap j))
        (by rw [hpost]; exact hfree)
      rw [ha, (hd _ hr).1 got rfl, hpost, List.append_nil]
      exact hc
    | eof =>
      refine flow_same (hs.cap j) (by rw [hpost, (Pipe.read_eof hr).1]) ha ?_
      rw [(hd _ hr).2 (by simp)]
    | wouldBlock =>
      refine flow_same (hs.cap j) (by rw [hpost, (Pipe.read_wouldBlock hr).1]) ha ?_
      rw [(hd _ hr).2 (by simp)]
  · refine flow_same (hs.cap id) ?_ ha ?_
    · rw [hpost]
      exact Pipe.read_of_ne (Ne.symm hj) n
    · simp [delivered, hmode, hact, hj]

theorem flow_write (hs : PipesSane t.pre.k.pipes) {j : PipeId} {buf n : ℕ} {rsp : UInt64} {e : Env}
    (hn : n ≤ ioMax) (hmode : t.pre.mode = .kernel ⟨.writePipe j buf n, rsp⟩)
    (hact : t.act = .run e)
    (hpost : t.post.k.pipes = (Pipe.write t.pre.k.pipes j (userBytes e buf n)).2) : Flow id t := by
  have hd : delivered id t = [] := by simp [delivered, hmode, hact]
  have hlen : (userBytes e buf n).length = n := by simp [userBytes]
  by_cases hj : j = id
  · subst hj
    rcases hr : Pipe.write t.pre.k.pipes j (userBytes e buf n) with ⟨r | _ | _, ps⟩
    · obtain ⟨hu, hc, hl, hfree, hle, -⟩ := Pipe.write_data (hs.cap j) (congrArg Prod.fst hr)
      have ha : accepted j t = (userBytes e buf n).take r := by
        have hne : r ≠ err := by
          simp only [ioMax, err] at *
          omega
        simp [accepted, hmode, hact, writePipe_out hn, hr, hne]
      refine .moved (by rw [hpost, hu]) ?_ (by rw [hpost]; exact hl) (by rw [hpost]; exact hfree)
      rw [ha, hd, hpost, List.nil_append]
      exact hc.symm
    · have hsame := (Pipe.write_wouldBlock (congrArg Prod.fst hr)).1
      refine flow_same (hs.cap j) (by rw [hpost, hsame]) ?_ hd
      simp [accepted, hmode, hact, writePipe_out hn, hr]
    · have hsame := (Pipe.write_broken (congrArg Prod.fst hr)).1
      refine flow_same (hs.cap j) (by rw [hpost, hsame]) ?_ hd
      simp [accepted, hmode, hact, writePipe_out hn, hr]
  · refine flow_same (hs.cap id) ?_ ?_ hd
    · rw [hpost]
      exact Pipe.write_of_ne (Ne.symm hj) _
    · simp only [accepted, hmode, hact]
      split <;> simp [hj]

theorem step_run {c : KernelCont} {e : Env} (h : t.pre.step t.act = some t.post)
    (hmode : t.pre.mode = .kernel c) (hact : t.act = .run e) : t.post = runCall t.pre.k c e := by
  rw [hact] at h
  simp only [Sys.step, hmode, Option.some.injEq] at h
  exact h.symm

theorem flow_kept (hs : PipesSane t.pre.k.pipes) (hk : PipesKept t.pre.k.pipes t.post.k.pipes)
    (ha : accepted id t = []) (hd : delivered id t = []) : Flow id t := by
  rcases hk with hk | ⟨j, hj⟩
  · rcases hk id with ⟨hu, hl⟩ | ⟨hu, hb, hh, hl⟩
    · exact .released hu hl
    · refine .moved hu ?_ (by rw [hl]; exact hs.cap id) fun _ => hl
      rw [ha, hd, List.append_nil, List.nil_append, Pipe.contents, Pipe.contents, hb, hh, hl]
  · obtain ⟨hu, hps⟩ := Pipe.alloc_some hj
    by_cases hij : id = j
    · subst hij
      exact .opened hu (by rw [hps, Function.update_self])
    · exact flow_same (hs.cap id) (by rw [hps, Function.update_of_ne hij]) ha hd

theorem step_flow (h : t.pre.step t.act = some t.post) (hs : PipesSane t.pre.k.pipes)
    (hsound : t.pre.Sound) (id : PipeId) : Flow id t := by
  by_cases hread : ∃ j buf n rsp e, t.pre.mode = .kernel ⟨.readPipe j buf n, rsp⟩ ∧ t.act = .run e
  · obtain ⟨j, buf, n, rsp, e, hmode, hact⟩ := hread
    refine flow_read hs hmode hact ?_
    rw [step_run h hmode hact]
    exact runCall_readPipe
  by_cases hwrite : ∃ j buf n rsp e, t.pre.mode = .kernel ⟨.writePipe j buf n, rsp⟩ ∧ t.act = .run e
  · obtain ⟨j, buf, n, rsp, e, hmode, hact⟩ := hwrite
    have hn : n ≤ ioMax := (hsound.1 ⟨.writePipe j buf n, rsp⟩ (by rw [hmode]; rfl)).2
    refine flow_write hs hn hmode hact ?_
    rw [step_run h hmode hact]
    exact runCall_writePipe hn
  have hr : ∀ j buf n rsp e, t.pre.mode = .kernel ⟨.readPipe j buf n, rsp⟩ → t.act ≠ .run e :=
    fun j buf n rsp e hm hact => hread ⟨j, buf, n, rsp, e, hm, hact⟩
  have hw : ∀ j buf n rsp e, t.pre.mode = .kernel ⟨.writePipe j buf n, rsp⟩ → t.act ≠ .run e :=
    fun j buf n rsp e hm hact => hwrite ⟨j, buf, n, rsp, e, hm, hact⟩
  refine flow_kept hs (step_pipesKept h hr hw) ?_ ?_
  · unfold accepted
    split
    · rename_i hmode hact
      exact absurd hact (hw _ _ _ _ _ hmode)
    · rfl
  · unfold delivered
    split
    · rename_i hmode hact
      exact absurd hact (hr _ _ _ _ _ hmode)
    · rfl

end Steps

structure StreamInv (s : Sys) : Prop where
  sound : s.Sound
  exactRefs : s.k.Exact
  sane : PipesSane s.k.pipes

theorem step_streamInv {s s' : Sys} {a : Act} (hi : StreamInv s) (h : s.step a = some s') :
    StreamInv s' := by
  refine ⟨step_sound hi.sound h, step_exact hi.exactRefs h, fun id => ?_, fun id hu => ?_⟩
  · cases step_flow (t := ⟨s, a, s'⟩) h hi.sane hi.sound id with
    | released _ hl => exact hl.le.trans (Nat.zero_le _)
    | opened _ hp => exact (congrArg Pipe.len hp).le.trans (Nat.zero_le _)
    | moved _ _ hl _ => exact hl
  · cases step_flow (t := ⟨s, a, s'⟩) h hi.sane hi.sound id with
    | released _ hl => exact hl
    | opened _ hp => exact absurd ((congrArg Pipe.used hp).symm.trans hu) (by simp [Pipe.fresh])
    | moved hu' _ _ hl =>
      exact (hl (hu'.symm.trans hu)).trans (hi.sane.released id (hu'.symm.trans hu))

theorem streamInv_boot (ready : Bool) : StreamInv (Sys.boot ready) where
  sound := sound_boot ready
  exactRefs := exact_boot ready
  sane := ⟨fun _ => Nat.zero_le _, fun _ _ => rfl⟩

theorem stream_eq {ready : Bool} {ts : List (Trans Sys Act)} {s : Sys} (h : Run ready ts s)
    (id : PipeId) (hu : (s.k.pipes id).used = true) :
    (stream id ts).accepted = (stream id ts).delivered ++ (s.k.pipes id).contents := by
  induction h with
  | nil => exact absurd hu (by simp [Sys.boot, Kernel.init, Pipe.empty])
  | @snoc ts s s' a hp hs ih =>
    have hi : StreamInv s := Reachable.invariant (streamInv_boot ready)
      (fun _ _ _ hi hs => step_streamInv hi hs) ⟨ts, hp⟩
    simp only [stream, List.foldl_append, List.foldl_cons, List.foldl_nil]
    cases step_flow (t := ⟨s, a, s'⟩) hs hi.sane hi.sound id with
    | released hfree _ => exact absurd (hfree.symm.trans hu) (by simp)
    | opened hfree hpipe =>
      simp only at hfree hpipe
      rw [hfree, hpipe]
      rfl
    | moved hsame hc _ _ =>
      simp only at hsame hc
      have hold : (s.k.pipes id).used = true := hsame.symm.trans hu
      rw [hold]
      simp only [Bool.not_true, Bool.false_and, Bool.false_eq_true, if_false]
      have hprev := ih hold
      simp only [stream] at hprev
      rw [hprev, List.append_assoc, hc, List.append_assoc]

section Returns

variable {e : Env} {k : Kernel} {id : PipeId} {fd buf len : ℕ}

theorem userSliceOk_true_wp {Q : Bool → Kernel → Prop}
    (hok : Mem.Vmm.userSliceOk e.space buf len = some true) (h : Q true k) :
    (userSliceOk buf len : KernM Kernel Bool).wp e k Q := by
  unfold userSliceOk
  rw [Eff.wp_bind, Eff.wp_ask, hok]
  exact Eff.wp_pure.mpr h

theorem sysRead_pipe (hlen : len ≤ ioMax)
    (hfd : k.sched.currentPcb.bind (·.fds.getMut fd) = some (.pipe id false))
    (hok : Mem.Vmm.userSliceOk e.space buf len = some true) :
    (sysRead fd buf len).wp e k fun next _ =>
      next = if len = 0 then .ret 0 else .goto (.readPipe id buf len) := by
  unfold sysRead
  rw [Eff.wp_ite, if_neg (Nat.not_lt.mpr hlen), Eff.wp_bind]
  apply getFd_wp
  rw [hfd]
  simp only [Eff.wp_ite]
  split
  · exact Eff.wp_pure.mpr rfl
  · rw [Eff.wp_bind]
    refine userSliceOk_true_wp hok ?_
    exact Eff.wp_pure.mpr rfl

theorem sysWrite_pipe (hlen : len ≤ ioMax)
    (hfd : k.sched.currentPcb.bind (·.fds.getMut fd) = some (.pipe id true))
    (hok : Mem.Vmm.userSliceOk e.space buf len = some true) :
    (sysWrite fd buf len).wp e k fun next _ =>
      next = if len = 0 then .ret 0 else .goto (.writePipe id buf len) := by
  unfold sysWrite
  rw [Eff.wp_ite, if_neg (Nat.not_lt.mpr hlen), Eff.wp_bind]
  refine userSliceOk_true_wp hok ?_
  simp only [if_true, Eff.wp_bind]
  apply getFd_wp
  rw [hfd]
  simp only [Eff.wp_ite]
  split
  · exact Eff.wp_pure.mpr rfl
  · exact Eff.wp_pure.mpr rfl

theorem pipeReturn_cases {w : Bool} {t : Trans Sys Act} {n v : ℕ}
    (h : pipeReturn w id t = some (n, v)) :
    (n = 0 ∧ v = 0 ∧ delivered id t = []) ∨ ∃ p rsp e k', t.pre.mode = .kernel ⟨p, rsp⟩ ∧
    t.act = .run e ∧ (runPoint p).out e t.pre.k = some (.ret v, k') ∧
      ((w = false ∧ ∃ buf, p = .readPipe id buf n) ∨
        (w = true ∧ ∃ buf, p = .writePipe id buf n)) := by
  unfold pipeReturn at h
  split at h
  · rename_i p rsp e hmode hact
    split at h
    · rename_i n' v' k' hl ho
      obtain ⟨rfl, rfl⟩ := Prod.mk.inj (Option.some.inj h)
      cases p with
      | readPipe j buf m =>
        simp only [lengthOn, Option.ite_none_right_eq_some, Option.some.injEq] at hl
        obtain ⟨⟨rfl, rfl⟩, rfl⟩ := hl
        exact Or.inr ⟨_, rsp, e, k', hmode, hact, ho, Or.inl ⟨rfl, buf, rfl⟩⟩
      | writePipe j buf m =>
        simp only [lengthOn, Option.ite_none_right_eq_some, Option.some.injEq] at hl
        obtain ⟨⟨rfl, rfl⟩, rfl⟩ := hl
        exact Or.inr ⟨_, rsp, e, k', hmode, hact, ho, Or.inr ⟨rfl, buf, rfl⟩⟩
      | dispatch num fd buf len =>
        simp only [lengthOn, Option.ite_none_right_eq_some, Option.some.injEq] at hl
        obtain ⟨⟨hnum, hlen, hfd, hok⟩, rfl⟩ := hl
        have hnext : (Next.ret v' : Next) = if len.toNat = 0 then .ret 0 else
            .goto (if w then .writePipe id buf.toNat len.toNat
              else .readPipe id buf.toNat len.toNat) := by
          rw [runPoint, syscallDispatch, hnum] at ho
          cases w with
          | false => exact sysRead_pipe hlen hfd hok _ _ ho
          | true => exact sysWrite_pipe hlen hfd hok _ _ ho
        split at hnext
        · rename_i hzero
          exact Or.inl ⟨hzero, Next.ret.inj hnext, by simp [delivered, hmode]⟩
        · simp at hnext
      | readStdin _ | stdinPolled _ | wait | netPing _ _ _ | httpGet _ _ _ => simp [lengthOn] at hl
    · simp at h
  · simp at h

theorem StreamInv.unused {s : Sys} (hi : StreamInv s) (hu : (s.k.pipes id).used = false) :
    (s.k.pipes id).nReaders = 0 ∧ (s.k.pipes id).nWriters = 0 ∧ (s.k.pipes id).len = 0 := by
  have hzero : s.k.sched.refs id false + s.k.sched.refs id true = 0 := by
    by_contra hne
    have := (Pipe.Exact.used_iff hi.exactRefs id).mpr hne
    simp [hu] at this
  rw [Pipe.Exact.nReaders_eq hi.exactRefs, Pipe.Exact.nWriters_eq hi.exactRefs]
  exact ⟨by omega, by omega, hi.sane.released id hu⟩

theorem Pipe.contents_eq_nil {p : Pipe} (h : p.len = 0) : p.contents = [] := by
  rw [Pipe.contents, h]
  rfl

variable {t : Trans Sys Act} {n v : ℕ}

theorem pipeReturn_read (hi : StreamInv t.pre) (h : pipeReturn false id t = some (n, v)) :
    (delivered id t).length = v ∧ (0 < n → v = 0 →
      (t.pre.k.pipes id).contents = [] ∧ (t.pre.k.pipes id).nWriters = 0) := by
  rcases pipeReturn_cases h with ⟨rfl, rfl, hd⟩ | ⟨p, rsp, e, k', hmode, hact, ho, hp⟩
  · rw [hd]
    exact ⟨rfl, fun h0 => absurd h0 (by omega)⟩
  · obtain ⟨-, buf, rfl⟩ | ⟨hw, -⟩ := hp
    · have hd : delivered id t =
          ((runPoint (.readPipe id buf n)).log e t.pre.k).flatMap UserOp.written := by
        simp only [delivered, hmode, hact, if_true]
      rw [readPipe_out] at ho
      rcases hr : Pipe.read t.pre.k.pipes id n with ⟨got | _ | _, ps⟩
      · simp only [hr, Option.some.injEq, Prod.mk.injEq, Next.ret.injEq] at ho
        obtain ⟨-, -, -, -, hne⟩ := Pipe.read_data (congrArg Prod.fst hr)
        rw [hd, readPipe_log, hr, ← ho.1]
        refine ⟨by simp [UserOp.written], fun hn hzero => ?_⟩
        exact absurd (List.length_eq_zero_iff.mp hzero) (hne hn)
      · simp only [hr, Option.some.injEq, Prod.mk.injEq, Next.ret.injEq] at ho
        rw [hd, readPipe_log, hr, ← ho.1]
        refine ⟨rfl, fun _ _ => ?_⟩
        rcases (Pipe.read_eof (congrArg Prod.fst hr)).2 with hu | ⟨hl, hw⟩
        · obtain ⟨-, hw, hl⟩ := hi.unused hu
          exact ⟨Pipe.contents_eq_nil hl, hw⟩
        · exact ⟨Pipe.contents_eq_nil hl, hw⟩
      · simp [hr] at ho
    · simp at hw

theorem pipeReturn_write (hi : StreamInv t.pre) (h : pipeReturn true id t = some (n, v))
    (hn : 0 < n) : v = err ↔ (t.pre.k.pipes id).nReaders = 0 := by
  rcases pipeReturn_cases h with ⟨rfl, -, -⟩ | ⟨p, rsp, e, k', hmode, hact, ho, hp⟩
  · omega
  · obtain ⟨hw, -⟩ | ⟨-, buf, rfl⟩ := hp
    · simp at hw
    · have hle : n ≤ ioMax := (hi.sound.1 ⟨.writePipe id buf n, rsp⟩ (by rw [hmode]; rfl)).2
      have hlen : (userBytes e buf n).length = n := by simp [userBytes]
      rw [writePipe_out hle] at ho
      rcases hr : Pipe.write t.pre.k.pipes id (userBytes e buf n) with ⟨r | _ | _, ps⟩
      · simp only [hr, Option.some.injEq, Prod.mk.injEq, Next.ret.injEq] at ho
        obtain ⟨-, -, -, -, hr', hread⟩ := Pipe.write_data (hi.sane.cap id) (congrArg Prod.fst hr)
        have hpos := hread (List.ne_nil_of_length_pos (by omega))
        simp only [ioMax, err] at *
        omega
      · simp [hr] at ho
      · simp only [hr, Option.some.injEq, Prod.mk.injEq, Next.ret.injEq] at ho
        refine ⟨fun _ => ?_, fun _ => ho.1.symm⟩
        rcases (Pipe.write_broken (congrArg Prod.fst hr)).2 with hu | hz
        · exact (hi.unused hu).1
        · exact hz

end Returns

/-- Along every run, a pipe in use is a queue of bytes. What its writes have accepted since it
was opened is what its reads have delivered followed by the ring, of at most 4096 bytes. A read
of at least one byte ends the stream only when it is empty and no writer is left, and a write of
at least one byte is refused exactly when no reader is left. Calls of length zero return zero. -/
theorem pipe_fifo {ready : Bool} {ts : List (Trans Sys Act)} {s : Sys} (h : Run ready ts s)
    (id : PipeId) :
    ((s.k.pipes id).used = true →
      (stream id ts).accepted = (stream id ts).delivered ++ (s.k.pipes id).contents ∧
      (s.k.pipes id).contents.length ≤ pipeCap) ∧
    ∀ t ∈ ts,
      (∀ n v, pipeReturn false id t = some (n, v) → (delivered id t).length = v ∧
        (0 < n → v = 0 →
          (t.pre.k.pipes id).contents = [] ∧ (t.pre.k.pipes id).nWriters = 0)) ∧
      (∀ n v, pipeReturn true id t = some (n, v) → 0 < n →
        (v = err ↔ (t.pre.k.pipes id).nReaders = 0)) ∧
      ∀ w v, pipeReturn w id t = some (0, v) → v = 0 := by
  have hinv : ∀ {s : Sys}, Reach ready s → StreamInv s := fun hr =>
    Reachable.invariant (streamInv_boot ready) (fun _ _ _ hi hs => step_streamInv hi hs) hr
  refine ⟨fun hu => ⟨stream_eq h id hu, ?_⟩, fun t ht => ?_⟩
  · rw [Pipe.contents, Ring.contents_length]
    exact (hinv ⟨ts, h⟩).sane.cap id
  · have hpre : StreamInv t.pre := by
      refine h.invariant_pre (I := StreamInv) (C := fun _ => True) (streamInv_boot ready)
        (fun t ht hi _ => step_streamInv hi ht) (by simp) t ht
    refine ⟨fun n v hr => pipeReturn_read hpre hr, fun n v hr hn => pipeReturn_write hpre hr hn,
      fun w v hr => ?_⟩
    rcases pipeReturn_cases hr with ⟨-, hv, -⟩ | ⟨p, rsp, e, k', hmode, -, -, hp⟩
    · exact hv
    · have hsound := hpre.sound.1 ⟨p, rsp⟩ (by rw [hmode]; rfl)
      rcases hp with ⟨-, buf, rfl⟩ | ⟨-, buf, rfl⟩
      · exact absurd hsound.1 (by simp)
      · exact absurd hsound.1 (by simp)

theorem pipe_fifo_three : ∃ ts s, Run true ts s ∧ (stream 0 ts).delivered.length = 2 ∧
    (stream 0 ts).accepted = (stream 0 ts).delivered ++ (s.k.pipes 0).contents := by
  obtain ⟨r, hr, hp⟩ := exists_path_of_replay Sys.step (Sys.boot true)
    ([Sample.init] ++ Sample.call 256 25 8192 0 0 ++ [Sample.run] ++
      Sample.call 256 2 4 4096 3 ++ [Sample.run, Sample.run] ++
      Sample.call 256 4 3 8192 2 ++ [Sample.run, Sample.run])
    (fun r => (r.2.k.pipes 0).used && decide ((stream 0 r.1).delivered.length = 2))
    (by decide)
  simp only [Bool.and_eq_true, decide_eq_true_eq] at hp
  exact ⟨r.1, r.2, hr, hp.2, ((pipe_fifo hr 0).1 hp.1).1⟩

/-- With its only reader closed, a pipe still accepts a write of length zero. -/
theorem zero_write_not_broken : ¬ ∀ ready ts s, Run ready ts s → ∀ t ∈ ts, ∀ id n v,
    pipeReturn true id t = some (n, v) → (v = err ↔ (t.pre.k.pipes id).nReaders = 0) := by
  intro h
  obtain ⟨r, hr, hp⟩ := exists_path_of_replay Sys.step (Sys.boot true)
    ([Sample.init] ++ Sample.call 256 25 8192 0 0 ++ [Sample.run] ++
      Sample.call 256 5 3 0 0 ++ [Sample.run] ++ Sample.call 256 2 4 4096 0 ++ [Sample.run])
    (fun r => r.1.any fun t => pipeReturn true 0 t = some (0, 0) &&
      decide ((t.pre.k.pipes 0).nReaders = 0)) (by decide)
  obtain ⟨t, ht, hp⟩ := List.any_eq_true.mp hp
  simp only [Bool.and_eq_true, decide_eq_true_eq] at hp
  have := (h true r.1 r.2 hr t ht 0 0 0 hp.1).mpr hp.2
  simp at this

end CoeleoOs.Task
