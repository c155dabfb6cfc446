import Libni.Distributed.Exclusion

/-!
The steps of `put`, `get` and `deregister_thread` between changes and inside one. Who
owns a node matters too: only the thread with the `BackendPtr` puts elements into it and
turns it off, so a node once found dead and empty stays so.
-/

namespace Libni.Distributed

open Function Libni.Transition Libni.Transition.System

variable {τ α : Type*}

/-- What a thread's `BackendPtr` is while it registers, puts an element or
deregisters. -/
def Local.Fits (l : Local α) (ptr : Option Nat) : Prop :=
  match l with
  | .put _ (.loadVersion n) | .put _ (.storeVersion n _) | .put _ (.unlock (some n))
  | .put _ (.push n) => ptr = some n
  | .deregister _ _ => ptr = none
  | _ => True

/-- The thread's `BackendPtr` refers to the node, or did so until the thread
began to deregister. -/
def State.Owns (s : State τ α) (t : τ) (n : Nat) : Prop :=
  s.ptr t = some n ∨ s.threads t = .deregister n .turnOff

/-- The invariant of the runs in which changes exclude each other. Between
changes the segment is well formed, inside one it is what the access about to
be made mends, and every node has at most one owner. -/
structure State.Guarded (s : State τ α) : Prop where
  alone : ∀ t u, (s.threads t).changing = true → (s.threads u).changing = true → t = u
  settled : (∀ t, (s.threads t).changing = false) → s.container.WellFormed
  phase : ∀ t, (s.threads t).Phase s.container
  owner : ∀ t n, s.Owns t n → n < s.container.nodeCount ∧ (s.container.nodes n).alive = true
  unique : ∀ t u n, s.Owns t n → s.Owns u n → t = u
  fits : ∀ t, (s.threads t).Fits (s.ptr t)

namespace State.Guarded

variable {s s' : State τ α} {t : τ} {l l' : Local α}

/-- Whatever a change has done so far, the nodes and their numbers are those
of a well-formed container. -/
theorem sound (h : s.Guarded) : s.container.Sound := by
  by_cases hquiet : ∀ t, (s.threads t).changing = false
  · exact (h.settled hquiet).sound
  · push Not at hquiet
    obtain ⟨t, ht⟩ := hquiet
    exact (h.phase t).sound (by simpa using ht)

theorem others_quiet (h : s.Guarded) (hl : (s.threads t).changing = true) (u : τ) (hu : u ≠ t) :
    (s.threads u).changing = false :=
  Bool.eq_false_iff.mpr fun hu' => hu (h.alone u t hu' hl)

variable [DecidableEq τ]

/-- A step of one thread that registers nothing. What has to be shown is about
that thread and the container; the rest of the invariant is carried over. -/
theorem of_step (h : s.Guarded) (hthreads : s'.threads = update s.threads t l')
    (hptr : s'.ptr = s.ptr)
    (halone : l'.changing = true → ∀ u, u ≠ t → (s.threads u).changing = false)
    (hsettled : l'.changing = false → (∀ u, u ≠ t → (s.threads u).changing = false) →
      s'.container.WellFormed)
    (hphase : l'.Phase s'.container)
    (hothers : ∀ u, u ≠ t → (s.threads u).Phase s'.container)
    (hnodes : ∀ u n, s'.Owns u n → s.Owns u n →
      n < s'.container.nodeCount ∧ (s'.container.nodes n).alive = true)
    (hoff : ∀ n, l' ≠ .deregister n .turnOff)
    (hfits : l'.Fits (s.ptr t)) : s'.Guarded := by
  have hself : s'.threads t = l' := by rw [hthreads, update_self]
  have hother (u : τ) (hu : u ≠ t) : s'.threads u = s.threads u := by
    rw [hthreads, update_of_ne hu]
  have howns (u : τ) (n : Nat) (hn : s'.Owns u n) : s.Owns u n := by
    rcases hn with hn | hn
    · exact .inl (by rwa [hptr] at hn)
    · by_cases hu : u = t
      · subst hu
        rw [hself] at hn
        exact absurd hn (hoff n)
      · rw [hother u hu] at hn
        exact .inr hn
  refine ⟨fun u v hu hv => ?_, fun hquiet => ?_, fun u => ?_, fun u n hn => hnodes u n hn (howns u n hn),
    fun u v n hu hv => h.unique u v n (howns u n hu) (howns v n hv), fun u => ?_⟩
  · by_cases hut : u = t <;> by_cases hvt : v = t
    · exact hut.trans hvt.symm
    · rw [hut, hself] at hu
      rw [hother v hvt, halone hu v hvt] at hv
      cases hv
    · rw [hvt, hself] at hv
      rw [hother u hut, halone hv u hut] at hu
      cases hu
    · rw [hother u hut] at hu
      rw [hother v hvt] at hv
      exact h.alone u v hu hv
  · refine hsettled (by rw [← hself]; exact hquiet t) fun u hu => ?_
    rw [← hother u hu]
    exact hquiet u
  · by_cases hu : u = t
    · subst hu
      rwa [hself]
    · rw [hother u hu]
      exact hothers u hu
  · rw [hptr]
    by_cases hu : u = t
    · subst hu
      rwa [hself]
    · rw [hother u hu]
      exact h.fits u

theorem quiet (h : s.Guarded) (hthreads : s'.threads = update s.threads t l')
    (hcontainer : s'.container = s.container) (hptr : s'.ptr = s.ptr)
    (hl : (s.threads t).changing = false) (hl' : l'.changing = false)
    (hoff : ∀ n, l' ≠ .deregister n .turnOff)
    (hfits : l'.Fits (s.ptr t)) : s'.Guarded := by
  refine h.of_step hthreads hptr ?_ (fun _ hquiet => ?_) (Local.phase_of_not_changing hl') ?_ ?_
    hoff hfits
  · rw [hl']
    rintro ⟨⟩
  · rw [hcontainer]
    refine h.settled fun u => ?_
    by_cases hu : u = t
    · rw [hu]
      exact hl
    · exact hquiet u hu
  · rw [hcontainer]
    exact fun u _ => h.phase u
  · rw [hcontainer]
    exact fun u n _ hn => h.owner u n hn

/-- A change begins, between changes. It finds the segment well formed. -/
theorem enter (h : s.Guarded) (hthreads : s'.threads = update s.threads t l')
    (hcontainer : s'.container = s.container) (hptr : s'.ptr = s.ptr)
    (hl : (s.threads t).changing = false)
    (hquiet : ∀ u, u ≠ t → (s.threads u).changing = false)
    (hphase : s.container.WellFormed → l'.Phase s.container)
    (hoff : ∀ n, l' ≠ .deregister n .turnOff) (hfits : l'.Fits (s.ptr t)) : s'.Guarded := by
  have hwell : s.container.WellFormed := by
    refine h.settled fun u => ?_
    by_cases hu : u = t
    · rw [hu]
      exact hl
    · exact hquiet u hu
  refine h.of_step hthreads hptr (fun _ => hquiet) ?_ ?_ ?_ ?_ hoff hfits
  · rw [hcontainer]
    exact fun _ _ => hwell
  · rw [hcontainer]
    exact hphase hwell
  · rw [hcontainer]
    exact fun u _ => h.phase u
  · rw [hcontainer]
    exact fun u n _ hn => h.owner u n hn

theorem inside (h : s.Guarded) (hthreads : s'.threads = update s.threads t l')
    (hptr : s'.ptr = s.ptr) (hl : (s.threads t).changing = true)
    (hnodes : s'.container.nodes = s.container.nodes)
    (hcount : s'.container.nodeCount = s.container.nodeCount)
    (hphase : l'.changing = true → l'.Phase s'.container)
    (hsettled : l'.changing = false → s'.container.WellFormed)
    (hoff : ∀ n, l' ≠ .deregister n .turnOff)
    (hfits : l'.Fits (s.ptr t)) : s'.Guarded := by
  have hquiet := h.others_quiet hl
  refine h.of_step hthreads hptr (fun _ => hquiet) (fun hl' _ => hsettled hl') ?_
    (fun u hu => Local.phase_of_not_changing (hquiet u hu)) ?_ hoff hfits
  · cases hl' : l'.changing with
    | true => exact hphase hl'
    | false => exact Local.phase_of_not_changing hl'
  · rw [hcount, hnodes]
    exact fun u n _ hn => h.owner u n hn

/-- A thread outside changes works on a backend. It may do so while another
thread is inside a change, since what that thread relies on survives. -/
theorem backend (h : s.Guarded) {n : Nat} {node : Node α}
    (hthreads : s'.threads = update s.threads t l')
    (hcontainer : s'.container = s.container.setNode n node) (hptr : s'.ptr = s.ptr)
    (hl : (s.threads t).changing = false) (hl' : l'.changing = false)
    (hnode : s.container.Fading n node)
    (howner : ∀ u, s'.Owns u n → s.Owns u n → node.alive = true)
    (hoff : ∀ n, l' ≠ .deregister n .turnOff) (hfits : l'.Fits (s.ptr t)) : s'.Guarded := by
  refine h.of_step hthreads hptr ?_ (fun _ hquiet => ?_) (Local.phase_of_not_changing hl') ?_ ?_
    hoff hfits
  · rw [hl']
    rintro ⟨⟩
  · rw [hcontainer]
    refine (h.settled fun u => ?_).setNode hnode.known hnode.kept
    by_cases hu : u = t
    · rw [hu]
      exact hl
    · exact hquiet u hu
  · rw [hcontainer]
    exact fun u _ => (h.phase u).setNode hnode
  · intro u m hm' hm
    obtain ⟨hlt, halive⟩ := h.owner u m hm
    rw [hcontainer]
    refine ⟨hlt, ?_⟩
    change (update s.container.nodes n node m).alive = true
    by_cases hmn : m = n
    · subst hmn
      rw [update_self]
      exact howner u hm' hm
    · rw [update_of_ne hmn]
      exact halive

/-- The new node is stored in the segment and becomes the thread's own. From
this access on it counts as created. -/
theorem storeEntry (h : s.Guarded) {element : α} {index : Nat}
    (hpc : s.threads t = .put element (.storeEntry index)) :
    (s.putStep t element (.storeEntry index)).Guarded := by
  have hl : (s.threads t).changing = true := by rw [hpc]; rfl
  have hquiet := h.others_quiet hl
  have hphase := h.phase t
  rw [hpc] at hphase
  obtain ⟨hlength, hlt, hwell⟩ := hphase
  have henroll := hwell.enroll hlt s.container.version
  have hcontainer : (s.putStep t element (.storeEntry index)).container.WellFormed := by
    simp only [← hlength] at henroll
    exact henroll
  have hself : (s.putStep t element (.storeEntry index)).threads t =
      .put element (.loadVersion s.container.nodeCount) := update_self _ _ _
  have hother (u : τ) (hu : u ≠ t) :
      (s.putStep t element (.storeEntry index)).threads u = s.threads u := update_of_ne hu _ _
  have howns (u : τ) (n : Nat) (hn : (s.putStep t element (.storeEntry index)).Owns u n) :
      (u = t ∧ n = s.container.nodeCount) ∨ (u ≠ t ∧ s.Owns u n) := by
    by_cases hu : u = t
    · subst hu
      rcases hn with hn | hn
      · have hn : update s.ptr u (some s.container.nodeCount) u = some n := hn
        rw [update_self] at hn
        cases hn
        exact .inl ⟨rfl, rfl⟩
      · rw [hself] at hn
        cases hn
    · refine .inr ⟨hu, ?_⟩
      rcases hn with hn | hn
      · have hn : update s.ptr t (some s.container.nodeCount) u = some n := hn
        rw [update_of_ne hu] at hn
        exact .inl hn
      · rw [hother u hu] at hn
        exact .inr hn
  refine ⟨fun u v hu hv => ?_, fun _ => hcontainer, fun u => ?_, fun u n hn => ?_,
    fun u v n hu hv => ?_, fun u => ?_⟩
  · by_cases hut : u = t <;> by_cases hvt : v = t
    · exact hut.trans hvt.symm
    · rw [hother v hvt, hquiet v hvt] at hv
      cases hv
    · rw [hother u hut, hquiet u hut] at hu
      cases hu
    · rw [hother u hut, hquiet u hut] at hu
      cases hu
  · by_cases hu : u = t
    · subst hu
      rw [hself]
      exact hcontainer
    · rw [hother u hu]
      exact Local.phase_of_not_changing (hquiet u hu)
  · change n < s.container.nodeCount + 1 ∧
      (update s.container.nodes s.container.nodeCount .new n).alive = true
    rcases howns u n hn with ⟨_, rfl⟩ | ⟨_, hn⟩
    · rw [update_self]
      exact ⟨Nat.lt_succ_self _, rfl⟩
    · obtain ⟨hlt', halive⟩ := h.owner u n hn
      rw [update_of_ne hlt'.ne]
      exact ⟨hlt'.trans (Nat.lt_succ_self _), halive⟩
  · rcases howns u n hu with ⟨hut, hn⟩ | ⟨hut, hu⟩ <;> rcases howns v n hv with ⟨hvt, hn'⟩ | ⟨hvt, hv⟩
    · exact hut.trans hvt.symm
    · exact absurd (hn ▸ (h.owner v n hv).1) (lt_irrefl _)
    · exact absurd (hn' ▸ (h.owner u n hu).1) (lt_irrefl _)
    · exact h.unique u v n hu hv
  · change Local.Fits _ (update s.ptr t (some s.container.nodeCount) u)
    by_cases hu : u = t
    · subst hu
      rw [hself, update_self]
      rfl
    · rw [hother u hu, update_of_ne hu]
      exact h.fits u

/-- One access of `remove_backend`, inside a change. Its three callers differ
only in where they go on. -/
theorem remove (h : s.Guarded) {pc : RemovePc} {resume : RemovePc → Local α} {after : Local α}
    (hl : (s.threads t).changing = true) (hpc : pc.Phase s.container)
    (hresume : ∀ pc', (resume pc').Phase (removeStep s.container pc).1 =
      pc'.Phase (removeStep s.container pc).1 ∧ (resume pc').changing = true)
    (hafter : after.changing = true → (removeStep s.container pc).1.WellFormed →
      after.Phase (removeStep s.container pc).1)
    (hoff : ∀ pc' n, resume pc' ≠ .deregister n .turnOff)
    (hoff' : ∀ n, after ≠ .deregister n .turnOff)
    (hfits : ∀ pc', (resume pc').Fits (s.ptr t)) (hfits' : after.Fits (s.ptr t)) :
    (s.remove t pc resume after).Guarded := by
  obtain ⟨hnodes, hcount⟩ := removeStep_frame s.container pc
  obtain ⟨hsome, hnone⟩ := hpc.step
  cases hr : (removeStep s.container pc).2 with
  | none =>
      have hthreads : (s.remove t pc resume after).threads = update s.threads t after := by
        simp only [State.remove, hr]
        rfl
      exact h.inside hthreads rfl hl hnodes hcount (fun hc => hafter hc (hnone hr))
        (fun _ => hnone hr) hoff' hfits'
  | some pc' =>
      have hthreads : (s.remove t pc resume after).threads =
          update s.threads t (resume pc') := by
        simp only [State.remove, hr]
        rfl
      refine h.inside hthreads rfl hl hnodes hcount (fun _ => ?_) (fun hc => ?_)
        (hoff pc') (hfits pc')
      · change (resume pc').Phase (removeStep s.container pc).1
        rw [(hresume pc').1]
        exact hsome pc' hr
      · rw [(hresume pc').2] at hc
        cases hc

/-- An attempt to take the lock. If it succeeds, a change begins, and it finds
the segment well formed. -/
theorem acquire (h : s.Guarded) (hl : (s.threads t).changing = false)
    (hguard : s.lock = none → ∀ u, u ≠ t → (s.threads u).changing = false)
    (hphase : s.container.WellFormed → l'.Phase s.container)
    (hoff : ∀ n, l' ≠ .deregister n .turnOff) (hfits : l'.Fits (s.ptr t)) :
    (s.acquire t l').Guarded := by
  unfold State.acquire
  split
  · next hlock => exact h.enter rfl rfl rfl hl (hguard hlock) hphase hoff hfits
  · exact h

/-- The accesses of `put` keep the invariant, given that its registering part
begins outside the changes of others. -/
theorem putStep (h : s.Guarded) {element : α} {pc : PutPc} (hpc : s.threads t = .put element pc)
    (hguard : s.Entering t → ∀ u, u ≠ t → (s.threads u).changing = false) :
    (s.putStep t element pc).Guarded := by
  have hphase := h.phase t
  have hfits := h.fits t
  rw [hpc] at hphase hfits
  cases pc with
  | lock =>
      refine h.acquire (by rw [hpc]; rfl) (fun hlock => hguard ?_) (fun hwell => hwell)
        (by rintro n ⟨⟩) trivial
      rwa [State.Entering, hpc]
  | loadLength | sweepLength | sweepAlive | sweepEmpty =>
      have hl : (s.threads t).changing = true := by rw [hpc]; rfl
      simp only [State.putStep]
      split <;> exact h.inside rfl rfl hl rfl rfl (fun _ => hphase) (by rintro ⟨⟩) (by rintro n ⟨⟩)
        trivial
  | sweepEntry | sweepEntryAgain =>
      have hl : (s.threads t).changing = true := by rw [hpc]; rfl
      simp only [State.putStep]
      split
      · exact h.inside rfl rfl hl rfl rfl (by rintro ⟨⟩) (fun _ => hphase) (by rintro n ⟨⟩) trivial
      · exact h.inside rfl rfl hl rfl rfl (fun _ => hphase) (by rintro ⟨⟩) (by rintro n ⟨⟩) trivial
  | removing i pc =>
      exact h.remove (by rw [hpc]; rfl) hphase (fun _ => ⟨rfl, rfl⟩) (fun _ hwell => hwell)
        (by rintro pc' n ⟨⟩) (by rintro n ⟨⟩) (fun _ => trivial) trivial
  | reloadLength =>
      have hl : (s.threads t).changing = true := by rw [hpc]; rfl
      simp only [State.putStep]
      split
      · exact h.inside rfl rfl hl rfl rfl (fun _ => hphase) (by rintro ⟨⟩) (by rintro n ⟨⟩) trivial
      · next hroom =>
          exact h.inside rfl rfl hl rfl rfl (fun _ => ⟨hphase, Nat.lt_of_not_le hroom⟩)
            (by rintro ⟨⟩) (by rintro n ⟨⟩) trivial
  | loadIndex =>
      exact h.inside rfl rfl (by rw [hpc]; rfl) rfl rfl (fun _ => ⟨hphase.1, hphase.2, rfl⟩)
        (by rintro ⟨⟩) (by rintro n ⟨⟩) trivial
  | storeLength index =>
      obtain ⟨hwell, hlt, rfl⟩ := hphase
      refine h.inside rfl rfl (by rw [hpc]; rfl) rfl rfl (fun _ => ⟨?_, hlt, hwell⟩)
        (by rintro ⟨⟩) (by rintro n ⟨⟩) trivial
      exact increment_eq hlt s.container.capacity_lt
  | storeEntry index => exact h.storeEntry hpc
  | loadVersion node =>
      exact h.inside rfl rfl (by rw [hpc]; rfl) rfl rfl (fun _ => hphase) (by rintro ⟨⟩)
        (by rintro n ⟨⟩) hfits
  | storeVersion node version =>
      exact h.inside rfl rfl (by rw [hpc]; rfl) rfl rfl
        (fun _ => Container.WellFormed.setVersion hphase _) (by rintro ⟨⟩) (by rintro n ⟨⟩) hfits
  | unlock node =>
      have hl : (s.threads t).changing = true := by rw [hpc]; rfl
      cases node with
      | none =>
          exact h.inside rfl rfl hl rfl rfl (by rintro ⟨⟩) (fun _ => hphase) (by rintro n ⟨⟩)
            trivial
      | some node =>
          exact h.inside rfl rfl hl rfl rfl (by rintro ⟨⟩) (fun _ => hphase) (by rintro n ⟨⟩) hfits
  | push node =>
      obtain ⟨hlt, halive⟩ := h.owner t node (.inl hfits)
      exact h.backend rfl rfl rfl (by rw [hpc]; rfl) rfl
        ⟨hlt, fun _ => Container.kept_of_alive halive, fun _ => halive⟩ (fun _ _ _ => halive)
        (by rintro n ⟨⟩) trivial

omit [DecidableEq τ] in
/-- A backend with elements is known, and may be popped from by any thread:
the pop leaves it dead if it was dead. -/
theorem fading_pop (h : s.Guarded) {node : Nat} {element : α}
    (hhead : (s.container.nodes node).elements.head? = some element) :
    s.container.Fading node (s.container.nodes node).pop := by
  have hne : (s.container.nodes node).elements ≠ [] := by
    intro hempty
    rw [hempty] at hhead
    cases hhead
  have hlt : node < s.container.nodeCount := by
    obtain ⟨segment, length, removed, hwell⟩ := h.sound
    by_contra hge
    have hblank := hwell.blank node (not_lt.mp hge)
    exact hne (congrArg Node.elements hblank)
  exact ⟨hlt, fun _ => by simp [Container.kept, Node.empty, hne], fun halive => halive⟩

theorem popStep (h : s.Guarded) {node : Nat} (hl : (s.threads t).changing = false)
    (hl' : l'.changing = false) (hoff : ∀ n, l' ≠ .deregister n .turnOff)
    (hfits : l'.Fits (s.ptr t)) : (s.popStep t node l').Guarded := by
  unfold State.popStep
  split
  · next element hhead =>
      exact h.backend rfl rfl rfl hl rfl (h.fading_pop hhead)
        (fun u _ hu => (h.owner u node hu).2) (by rintro n ⟨⟩) trivial
  · exact h.quiet rfl rfl rfl hl hl' hoff hfits

/-- The accesses of `get` keep the invariant. The guard is used where `get`
has found a dead node and calls `remove_backend` without the lock. -/
theorem getStep (h : s.Guarded) {random : Nat} {pc : GetPc} (hpc : s.threads t = .get pc)
    (hguard : s.Entering t → ∀ u, u ≠ t → (s.threads u).changing = false) :
    (s.getStep t random pc).Guarded := by
  have hphase := h.phase t
  rw [hpc] at hphase
  cases pc with
  | own node => exact h.popStep (by rw [hpc]; rfl) rfl (by rintro n ⟨⟩) trivial
  | testLength | loadStart | firstIndex | secondLength | secondIndex =>
      have hl : (s.threads t).changing = false := by rw [hpc]; rfl
      simp only [State.getStep]
      split <;> exact h.quiet rfl rfl rfl hl rfl (by rintro n ⟨⟩) trivial
  | loadVersion | arrayLength =>
      exact h.quiet rfl rfl rfl (by rw [hpc]; rfl) rfl (by rintro n ⟨⟩) trivial
  | firstLength | compareVersion | tailState =>
      have hl : (s.threads t).changing = false := by rw [hpc]; rfl
      simp only [State.getStep]
      split <;> exact h.quiet rfl rfl rfl hl rfl (by rintro n ⟨⟩) trivial
  | firstEntry | secondEntry =>
      have hl : (s.threads t).changing = false := by rw [hpc]; rfl
      simp only [State.getStep]
      split <;> exact h.quiet rfl rfl rfl hl rfl (by rintro n ⟨⟩) trivial
  | pop round i index node => exact h.popStep (by rw [hpc]; rfl) rfl (by rintro n ⟨⟩) trivial
  | alive round i index node =>
      have hl : (s.threads t).changing = false := by rw [hpc]; rfl
      simp only [State.getStep]
      split
      · exact h.quiet rfl rfl rfl hl rfl (by rintro n ⟨⟩) trivial
      · next hdead =>
          refine h.enter rfl rfl rfl hl (hguard ?_) (fun hwell => hwell) (by rintro n ⟨⟩) trivial
          rw [State.Entering, hpc]
          exact Bool.eq_false_iff.mpr hdead
  | removing pc =>
      exact h.remove (by rw [hpc]; rfl) hphase (fun _ => ⟨rfl, rfl⟩) (by rintro ⟨⟩)
        (by rintro pc' n ⟨⟩) (by rintro n ⟨⟩) (fun _ => trivial) trivial

/-- The accesses of `deregister_thread` keep the invariant. The owner of the
node is this thread up to `turn_off` and nobody afterwards. -/
theorem deregisterStep (h : s.Guarded) {node : Nat} {pc : DeregisterPc}
    (hpc : s.threads t = .deregister node pc)
    (hguard : s.Entering t → ∀ u, u ≠ t → (s.threads u).changing = false) :
    (s.deregisterStep t node pc).Guarded := by
  have hphase := h.phase t
  have hfits : s.ptr t = none := by
    have hfits := h.fits t
    rw [hpc] at hfits
    exact hfits
  rw [hpc] at hphase
  cases pc with
  | turnOff =>
      have hown : s.Owns t node := .inr hpc
      obtain ⟨hlt, halive⟩ := h.owner t node hown
      refine h.backend rfl rfl rfl (by rw [hpc]; rfl) rfl
        ⟨hlt, fun _ => Container.kept_of_alive halive, by rintro ⟨⟩⟩ (fun u hu' hu => ?_)
        (by rintro n ⟨⟩) hfits
      -- nobody else owns the node, and this thread has given it up
      obtain rfl := h.unique u t node hu hown
      rcases hu' with hu' | hu'
      · have hu' : s.ptr u = some node := hu'
        rw [hfits] at hu'
        cases hu'
      · have hu' : update s.threads u (.deregister node .empty) u = .deregister node .turnOff := hu'
        rw [update_self] at hu'
        cases hu'
  | empty | loadLength =>
      have hl : (s.threads t).changing = false := by rw [hpc]; rfl
      simp only [State.deregisterStep]
      split
      · exact h.quiet rfl rfl rfl hl rfl (by rintro n ⟨⟩) hfits
      · exact h.quiet rfl rfl rfl hl rfl (by rintro n ⟨⟩) trivial
  | loadEntry i =>
      have hl : (s.threads t).changing = false := by rw [hpc]; rfl
      simp only [State.deregisterStep]
      split <;> exact h.quiet rfl rfl rfl hl rfl (by rintro n ⟨⟩) hfits
  | lock i =>
      refine h.acquire (by rw [hpc]; rfl) (fun hlock => hguard ?_) (fun hwell => hwell)
        (by rintro n ⟨⟩) hfits
      rwa [State.Entering, hpc]
  | removing pc =>
      exact h.remove (by rw [hpc]; rfl) hphase (fun _ => ⟨rfl, rfl⟩) (by rintro ⟨⟩)
        (by rintro pc' n ⟨⟩) (by rintro n ⟨⟩) (fun _ => hfits) hfits
  | unlock => exact h.quiet rfl rfl rfl (by rw [hpc]; rfl) rfl (by rintro n ⟨⟩) trivial

/-- `deregister_thread` gives up the `BackendPtr` before anything else. -/
theorem callDeregister (h : s.Guarded) {node : Nat} (hidle : s.threads t = .idle)
    (hptr : s.ptr t = some node) :
    ({ s.goto t (.deregister node .turnOff) with ptr := update s.ptr t none } :
      State τ α).Guarded := by
  have howns (u : τ) (n : Nat) (hn : ({ s.goto t (.deregister node .turnOff) with
      ptr := update s.ptr t none } : State τ α).Owns u n) : s.Owns u n := by
    by_cases hu : u = t
    · subst hu
      rcases hn with hn | hn
      · have hn : update s.ptr u none u = some n := hn
        rw [update_self] at hn
        cases hn
      · have hn : update s.threads u (.deregister node .turnOff) u = .deregister n .turnOff := hn
        rw [update_self] at hn
        cases hn
        exact .inl hptr
    · rcases hn with hn | hn
      · have hn : update s.ptr t none u = some n := hn
        rw [update_of_ne hu] at hn
        exact .inl hn
      · have hn : update s.threads t (.deregister node .turnOff) u = .deregister n .turnOff := hn
        rw [update_of_ne hu] at hn
        exact .inr hn
  have hchanging (u : τ) :
      (update s.threads t (.deregister node .turnOff) u).changing = (s.threads u).changing := by
    by_cases hu : u = t
    · subst hu
      rw [update_self, hidle]
      rfl
    · rw [update_of_ne hu]
  refine ⟨fun u v hu hv => h.alone u v ((hchanging u).symm.trans hu) ((hchanging v).symm.trans hv),
    fun hquiet => h.settled fun u => (hchanging u).symm.trans (hquiet u), fun u => ?_,
    fun u n hn => h.owner u n (howns u n hn),
    fun u v n hu hv => h.unique u v n (howns u n hu) (howns v n hv), fun u => ?_⟩
  · change (update s.threads t _ u).Phase s.container
    by_cases hu : u = t
    · subst hu
      rw [update_self]
      trivial
    · rw [update_of_ne hu]
      exact h.phase u
  · change (update s.threads t _ u).Fits (update s.ptr t none u)
    by_cases hu : u = t
    · subst hu
      rw [update_self, update_self]
      rfl
    · rw [update_of_ne hu, update_of_ne hu]
      exact h.fits u

theorem call (h : s.Guarded) (hidle : s.threads t = .idle) (op : Op α) :
    (s.call t op).Guarded := by
  have hl : (s.threads t).changing = false := by rw [hidle]; rfl
  cases op with
  | put element =>
      simp only [State.call]
      cases hptr : s.ptr t with
      | none => exact h.quiet rfl rfl rfl hl rfl (by rintro n ⟨⟩) trivial
      | some node => exact h.quiet rfl rfl rfl hl rfl (by rintro n ⟨⟩) hptr
  | get =>
      simp only [State.call]
      cases hptr : s.ptr t with
      | none => exact h.quiet rfl rfl rfl hl rfl (by rintro n ⟨⟩) trivial
      | some node => exact h.quiet rfl rfl rfl hl rfl (by rintro n ⟨⟩) trivial
  | deregister =>
      simp only [State.call]
      split
      · exact h.quiet rfl rfl rfl hl rfl (by rintro n ⟨⟩) trivial
      · next node hptr => exact h.callDeregister hidle hptr

/-- Every step that begins no change inside another one's keeps the invariant. -/
theorem next (h : s.Guarded) {l : Label τ α} (hguard : Exclusive s l)
    (hnext : s.next l = some s') : s'.Guarded := by
  cases l with
  | call t op =>
      obtain ⟨hidle, rfl⟩ := State.next_call hnext
      exact h.call hidle op
  | step t random =>
      rcases State.next_step hnext with
        ⟨element, pc, hpc, rfl⟩ | ⟨pc, hpc, rfl⟩ | ⟨node, pc, hpc, rfl⟩
      · exact h.putStep hpc hguard
      · exact h.getStep hpc hguard
      · exact h.deregisterStep hpc hguard
  | ret t =>
      obtain ⟨_, hdone, rfl⟩ := State.next_ret hnext
      exact h.quiet rfl rfl rfl (by rw [hdone]; rfl) rfl (by rintro n ⟨⟩) trivial

omit [DecidableEq τ] in
theorem initial (capacity : Nat) (h : capacity < 2 ^ 64) :
    (State.initial τ α capacity h).Guarded where
  alone := by rintro _ _ ⟨⟩
  settled _ := .new capacity h
  phase _ := trivial
  owner := by rintro _ _ (hn | hn) <;> cases hn
  unique := by rintro _ _ _ (hn | hn) <;> cases hn
  fits _ := trivial

end State.Guarded

variable [DecidableEq τ] {capacity : Nat} {hcapacity : capacity < 2 ^ 64}
  {ls : List (Label τ α)} {s : State τ α}

/-- The segment lists every node that is alive or has elements, once. This is
what every operation expects to find. -/
def Container.Complete (c : Container α) : Prop :=
  (∀ i < c.length, ∃ n, c.segment i = some n) ∧
    (∀ i j, i < c.length → j < c.length → c.segment i = c.segment j → i = j) ∧
    c.length ≤ c.capacity ∧
    ∀ n < c.nodeCount, (c.nodes n).alive = true ∨ (c.nodes n).elements ≠ [] →
      ∃ i < c.length, c.segment i = some n

theorem Container.WellFormed.complete {c : Container α} (h : c.WellFormed) : c.Complete := by
  refine ⟨h.filled, fun i j hi _ heq => ?_, h.length_le, fun n hn hkeep => ?_⟩
  · obtain ⟨n, hin⟩ := h.filled i hi
    exact h.distinct i j n hin (heq ▸ hin)
  · have hkept : c.kept n = true := by
      rcases hkeep with halive | hne
      · exact Container.kept_of_alive halive
      · simp [Container.kept, Node.empty, hne]
    obtain ⟨i, hi⟩ := h.held n hn hkept
    exact ⟨i, (h.entry_lt i n hi).1, hi⟩

/-- In the runs where no change begins inside another one's, the segment is
complete whenever no thread is inside a change: no backend in use is lost and
none is listed twice. `get` calls `remove_backend` without the lock, so the
condition is more than what the lock sees to. -/
theorem segment_complete (h : (distributed τ α capacity hcapacity).Run Exclusive ls s)
    (hquiet : ∀ t, (s.threads t).changing = false) : s.container.Complete := by
  have hguarded : s.Guarded := h.invariant (fun s hs => hs ▸ .initial capacity hcapacity)
    fun _ _ _ hu hguard hnext => hu.next hguard hnext
  exact (hguarded.settled hquiet).complete

def steps (t : τ) (count : Nat) (random : Nat) : List (Label τ α) :=
  List.replicate count (.step t random)

def registering (t : τ) (element : α) : List (Label τ α) :=
  .call t (.put element) :: steps t 10 0 ++ [.ret t]

/-- A thread deregisters while its backend still has elements. -/
def leaving (t : τ) : List (Label τ α) := .call t .deregister :: steps t 2 0 ++ [.ret t]

/-- A thread without a `BackendPtr` gets an element from the first backend it
looks at. -/
def taking (t : τ) (random : Nat) : List (Label τ α) :=
  .call t .get :: steps t 8 random ++ [.ret t]

/-- Thread 0 leaves, thread 1 takes its element, finds the backend dead and
removes it. -/
def removalRun : List (Label (Fin 2) Nat) :=
  registering 0 7 ++ leaving 0 ++ taking 1 0 ++ .call 1 .get :: steps 1 23 0 ++ registering 0 8

def removalState : State (Fin 2) Nat :=
  ((distributed (Fin 2) Nat 1 Container.one_lt).exec Exclusive (.initial _ _ 1 Container.one_lt)
    removalRun).get (by decide +kernel)

theorem segment_complete_removalRun : removalState.container.Complete ∧
    removalState.container.removed = [0] ∧ removalState.container.segment 0 = some 1 := by
  have hrun : (distributed (Fin 2) Nat 1 Container.one_lt).Run Exclusive removalRun removalState :=
    run_of_exec rfl _
  have hquiet : ∀ t, (removalState.threads t).changing = false := by decide +kernel
  exact ⟨segment_complete hrun hquiet, by decide +kernel, by decide +kernel⟩

/-- Two threads remove two drained backends at the same time. Both move the
last entry, and the third backend, which is alive, is lost. -/
def lostRun : List (Label (Fin 3) Nat) :=
  registering 0 7 ++ registering 1 8 ++ registering 2 9 ++ leaving 0 ++ leaving 1 ++
    taking 0 0 ++ taking 0 1 ++ .call 0 .get :: steps 0 9 0 ++ .call 1 .get :: steps 1 9 1 ++
    steps 0 4 0 ++ steps 1 4 0 ++ steps 0 2 0 ++ steps 1 2 0 ++ steps 0 7 0 ++ steps 1 7 0

def lostState : State (Fin 3) Nat :=
  ((distributed (Fin 3) Nat 3 Container.three_lt).exec Free (.initial _ _ 3 Container.three_lt)
    lostRun).get (by decide +kernel)

/-- Without the condition the segment does not stay complete: two threads that
remove drained backends may lose one that is alive. -/
theorem backend_lost : ¬ ∀ (ls : List (Label (Fin 3) Nat)) (s : State (Fin 3) Nat),
    (distributed (Fin 3) Nat 3 Container.three_lt).Run Free ls s →
      (∀ t, (s.threads t).changing = false) → s.container.Complete := by
  intro hall
  have hrun : (distributed (Fin 3) Nat 3 Container.three_lt).Run Free lostRun lostState :=
    run_of_exec rfl _
  have hquiet : ∀ t, (lostState.threads t).changing = false := by decide +kernel
  have halive : 2 < lostState.container.nodeCount ∧
      (lostState.container.nodes 2).alive = true := by decide +kernel
  have hlength : lostState.container.length = 1 := by decide +kernel
  have hentry : lostState.container.segment 0 = some 1 := by decide +kernel
  obtain ⟨_, _, _, hheld⟩ := hall lostRun lostState hrun hquiet
  obtain ⟨i, hi, hsegment⟩ := hheld 2 halive.1 (.inl halive.2)
  obtain rfl : i = 0 := by omega
  rw [hentry] at hsegment
  cases hsegment

end Libni.Distributed
