import Libni.BufferList.Linearizable

/-!
The buffers over the whole life of a buffer list. Each allocated buffer is one of those
to be read, in the cache, or in the hands of the thread that moves it from one to the
other, so none is lost while the threads work, and between calls the destructor finds
each of them once.
-/

namespace Libni.BufferList

open Function Libni.Transition Libni.Transition.System
open Libni.RingBuffer (Role)

variable {α : Type*}

section Destroy

/-- `delete` of a buffer; deleting one that is not allocated is an error,
which has no result. -/
def Mem.free (m : Mem α) (a : Addr) : Option (Mem α) :=
  if m.live a = true then some (m.delete a) else none

/-- `while ((buf = bufs.pop())) delete buf;`, which ends at the first null
pointer. -/
def Mem.freeAll (m : Mem α) : List Addr → Option (Mem α)
  | [] => some m
  | a :: bufs => if a = 0 then some m else (m.free a).bind fun m => m.freeAll bufs

/-- `~SPSCBufferList`: the buffer being read, those in use and those in the
cache. -/
def Mem.destroy (m : Mem α) : Option (Mem α) :=
  (if m.bufToRead = 0 then some m else m.free m.bufToRead).bind fun m =>
    (m.freeAll m.inUse).bind fun m => m.freeAll m.cache

variable {m : Mem α} {bufs : List Addr}

theorem Mem.live_delete_iff (a b : Addr) :
    (m.delete a).live b = true ↔ m.live b = true ∧ b ≠ a := by
  by_cases hb : b = a
  · subst hb
    simp [Mem.delete]
  · simp [Mem.delete, hb]

/-- A list of distinct allocated buffers is deleted and nothing else. -/
theorem Mem.freeAll_eq (hnodup : bufs.Nodup) (hlive : ∀ a ∈ bufs, m.live a = true)
    (hne : ∀ a ∈ bufs, a ≠ 0) : ∃ m', m.freeAll bufs = some m' ∧ m'.cache = m.cache ∧
      ∀ b, m'.live b = true ↔ m.live b = true ∧ b ∉ bufs := by
  induction bufs generalizing m with
  | nil => exact ⟨m, rfl, rfl, by simp⟩
  | cons a bufs ih =>
      rw [List.nodup_cons] at hnodup
      obtain ⟨m', hall, hcache, hfreed⟩ := ih (m := m.delete a) hnodup.2
        (fun b hb => (Mem.live_delete_iff a b).mpr
          ⟨hlive b (List.mem_cons_of_mem a hb), ne_of_mem_of_not_mem hb hnodup.1⟩)
        fun b hb => hne b (List.mem_cons_of_mem a hb)
      refine ⟨m', ?_, hcache, fun b => ?_⟩
      · have hfree : m.free a = some (m.delete a) := if_pos (hlive a List.mem_cons_self)
        rw [Mem.freeAll, if_neg (hne a List.mem_cons_self), hfree]
        exact hall
      · rw [hfreed, Mem.live_delete_iff, List.mem_cons, not_or, and_assoc]

/-- The destructor of a list all of whose buffers are allocated and distinct. -/
theorem Mem.destroy_eq (hnodup : (m.bufToRead :: m.inUse ++ m.cache).Nodup)
    (hlive : ∀ a ∈ m.bufToRead :: m.inUse ++ m.cache, m.live a = true)
    (hne : ∀ a ∈ m.bufToRead :: m.inUse ++ m.cache, a ≠ 0) :
    ∃ m', m.destroy = some m' ∧
      ∀ b, m'.live b = true ↔ m.live b = true ∧ b ∉ m.bufToRead :: m.inUse ++ m.cache := by
  have hread : m.bufToRead ≠ 0 := hne _ (by simp)
  rw [List.cons_append, List.nodup_cons, List.nodup_append] at hnodup
  obtain ⟨hnotMem, hinUse, hcached, hapart⟩ := hnodup
  have hfree : m.free m.bufToRead = some (m.delete m.bufToRead) := if_pos (hlive _ (by simp))
  obtain ⟨m₁, hall₁, hcache₁, hfreed₁⟩ := Mem.freeAll_eq (m := m.delete m.bufToRead) hinUse
    (fun b hb => (Mem.live_delete_iff _ b).mpr ⟨hlive b (by simp [hb]),
      ne_of_mem_of_not_mem (List.mem_append_left _ hb) hnotMem⟩)
    fun b hb => hne b (by simp [hb])
  have hcache : m₁.cache = m.cache := hcache₁
  obtain ⟨m₂, hall₂, -, hfreed₂⟩ := Mem.freeAll_eq (m := m₁) hcached
    (fun b hb => (hfreed₁ b).mpr ⟨(Mem.live_delete_iff _ b).mpr ⟨hlive b (by simp [hb]),
      ne_of_mem_of_not_mem (List.mem_append_right _ hb) hnotMem⟩,
      fun hmem => hapart b hmem b hb rfl⟩)
    fun b hb => hne b (by simp [hb])
  refine ⟨m₂, ?_, fun b => ?_⟩
  · rw [Mem.destroy, if_neg hread, hfree, Option.bind_some]
    exact (congrArg (·.bind fun m => m.freeAll m.cache) hall₁).trans (by
      rw [Option.bind_some, hcache, hall₂])
  · rw [hfreed₂, hfreed₁, Mem.live_delete_iff]
    simp only [List.cons_append, List.mem_cons, List.mem_append, not_or, and_assoc]

end Destroy

section Accounted

/-- Every allocated buffer is one that somebody may still use. Together with
the shape, by which these are allocated and distinct, it says that none is
lost. -/
structure Accounted (m : Mem α) (p c : Local α) : Prop where
  owned : ∀ a, m.live a = true → a ∈ owned m p c
  ne_zero : ∀ a, m.live a = true → a ≠ 0

variable {empty : α} {m m' : Mem α} {p p' c c' : Local α} {pre : List Addr} {fresh : Addr}

theorem mem_owned {a : Addr} : a ∈ BufferList.owned m p c ↔
    a ∈ c.chain m ∨ a ∈ m.cache ∨ a ∈ p.inHand ∨ a ∈ c.released m := by
  simp only [BufferList.owned, List.mem_append, or_assoc]

theorem Accounted.keep (h : Accounted m p c) (hlive : m'.live = m.live)
    (howned : ∀ a, a ∈ BufferList.owned m p c → a ∈ BufferList.owned m' p' c') :
    Accounted m' p' c' := by
  refine ⟨fun a ha => ?_, ?_⟩
  · rw [hlive] at ha
    exact howned a (h.owned a ha)
  · rw [hlive]
    exact h.ne_zero

theorem chain_publish (b : Addr) (c : Local α) :
    c.chain { m with inUse := m.inUse ++ [b] } = c.chain m ++ [b] := by
  unfold Local.chain
  split <;> rfl

/-- A step of the producer, which takes a buffer from the cache or the
allocator and passes it on. -/
theorem Accounted.pushStep {pc : PushPc α} (h : Accounted m (.push pc) c)
    (hstep : BufferList.pushStep m fresh pc = some (m', p')) : Accounted m' p' c := by
  cases pc with
  | checkAvailable e =>
      simp only [BufferList.pushStep] at hstep
      split at hstep <;> cases hstep <;> exact h.keep rfl fun _ ha => ha
  | takeCache e =>
      simp only [BufferList.pushStep] at hstep
      split at hstep <;> cases hstep
      · exact h.keep rfl fun _ ha => ha
      · next b rest hcache =>
          refine h.keep rfl fun a ha => ?_
          rw [mem_owned] at ha ⊢
          rw [chain_congr rfl rfl, released_congr rfl]
          simp only [hcache, Local.inHand, List.mem_cons, List.not_mem_nil, or_false, false_or]
            at ha ⊢
          rcases ha with ha | (rfl | ha) | ha
          · exact .inl ha
          · exact .inr (.inr (.inl rfl))
          · exact .inr (.inl ha)
          · exact .inr (.inr (.inr ha))
  | newBuffer e =>
      simp only [BufferList.pushStep, Option.map_eq_some_iff] at hstep
      obtain ⟨_, hnew, ⟨⟩⟩ := hstep
      obtain ⟨⟨hne, -⟩, rfl⟩ := Mem.newBuffer_eq_some.mp hnew
      refine ⟨fun a ha => ?_, fun a ha => ?_⟩
      · rw [mem_owned, chain_congr rfl rfl, released_congr rfl]
        by_cases hfresh : a = fresh
        · exact .inr (.inr (.inl (by rw [hfresh]; exact List.mem_singleton_self _)))
        · have hold := mem_owned.mp (h.owned a (by simpa [update_of_ne hfresh] using ha))
          rcases hold with ha | ha | ha | ha
          · exact .inl ha
          · exact .inr (.inl ha)
          · cases ha
          · exact .inr (.inr (.inr ha))
      · by_cases hfresh : a = fresh
        · rwa [hfresh]
        · exact h.ne_zero a (by simpa [update_of_ne hfresh] using ha)
  | publish e b =>
      cases hstep
      refine h.keep rfl fun a ha => ?_
      rw [mem_owned] at ha ⊢
      rw [chain_publish, released_congr rfl]
      simp only [Local.inHand, List.mem_append, List.mem_singleton, List.not_mem_nil] at ha ⊢
      rcases ha with ha | ha | rfl | ha
      · exact .inl (.inl ha)
      · exact .inr (.inl ha)
      · exact .inl (.inr rfl)
      · exact .inr (.inr (.inr ha))
  | setWrite e b | store e =>
      cases hstep
      refine h.keep rfl fun a ha => ?_
      rw [mem_owned] at ha ⊢
      rw [chain_congr rfl rfl, released_congr rfl]
      exact ha

/-- A step of the consumer, which gives a buffer back or deletes it. -/
theorem Accounted.popStep {pc : PopPc} (h : Accounted m p (.pop pc)) :
    Accounted (BufferList.popStep empty m pc).1 p (BufferList.popStep empty m pc).2 := by
  cases pc with
  | checkEmpty | compare | checkAgain =>
      simp only [BufferList.popStep]
      split <;> exact h.keep rfl fun _ ha => ha
  | nextToRead =>
      simp only [BufferList.popStep]
      split
      · exact h.keep rfl fun _ ha => ha
      · next n rest huse =>
          refine h.keep rfl fun a ha => ?_
          rw [mem_owned] at ha ⊢
          simp only [Local.chain, Local.released, huse, List.mem_cons, List.not_mem_nil] at ha ⊢
          rcases ha with (rfl | ha) | ha | ha | ha
          · exact .inr (.inr (.inr (.inl rfl)))
          · exact .inl ha
          · exact .inr (.inl ha)
          · exact .inr (.inr (.inl ha))
          · cases ha
  | resetOld n => exact h.keep rfl fun _ ha => ha
  | cacheOld n =>
      simp only [BufferList.popStep]
      split
      · refine h.keep rfl fun a ha => ?_
        rw [mem_owned] at ha ⊢
        simp only [Local.chain, Local.released, List.mem_append, List.mem_singleton,
          List.not_mem_nil] at ha ⊢
        rcases ha with ha | ha | ha | rfl
        · exact .inl ha
        · exact .inr (.inl (.inl ha))
        · exact .inr (.inr (.inl ha))
        · exact .inr (.inl (.inr rfl))
      · exact h.keep rfl fun _ ha => ha
  | deleteOld n =>
      refine ⟨fun a ha => ?_, fun a ha => ?_⟩
      · obtain ⟨hlive, hne⟩ := (Mem.live_delete_iff m.bufToRead a).mp ha
        rcases mem_owned.mp (h.owned a hlive) with ha | ha | ha | ha
        · exact mem_owned.mpr (.inl ha)
        · exact mem_owned.mpr (.inr (.inl ha))
        · exact mem_owned.mpr (.inr (.inr (.inl ha)))
        · exact absurd (List.mem_singleton.mp ha) hne
      · exact h.ne_zero a ((Mem.live_delete_iff m.bufToRead a).mp ha).1
  | setRead n => exact h.keep rfl fun _ ha => ha
  | popBuffer =>
      simp only [BufferList.popStep]
      split <;> exact h.keep rfl fun _ ha => ha

theorem Accounted.keep_state {s : State α} {t : Role} {l : Local α}
    (h : Accounted s.mem (s.threads .producer) (s.threads .consumer))
    (howned : l.inHand = (s.threads t).inHand ∧ l.chain s.mem = (s.threads t).chain s.mem ∧
      l.released s.mem = (s.threads t).released s.mem) :
    Accounted s.mem (update s.threads t l .producer) (update s.threads t l .consumer) := by
  obtain ⟨hhand, hchain, hreleased⟩ := howned
  refine h.keep rfl fun a ha => ?_
  rw [mem_owned] at ha ⊢
  cases t with
  | producer => rwa [update_self, update_of_ne (by decide), hhand]
  | consumer => rwa [update_self, update_of_ne (by decide), hchain, hreleased]

end Accounted

section Main

variable [DecidableEq α] {empty : α}

theorem Accounted.next {s s' : State α} {l : Label α} (hinv : Inv empty s)
    (h : Accounted s.mem (s.threads .producer) (s.threads .consumer))
    (hnext : (system empty).next s l = some s') :
    Accounted s'.mem (s'.threads .producer) (s'.threads .consumer) := by
  cases l with
  | call t op =>
      obtain ⟨hidle, rfl⟩ := next_call hnext
      refine h.keep_state ?_
      rw [hidle, start_inHand, start_chain, start_released]
      exact ⟨rfl, rfl, rfl⟩
  | ret t res =>
      obtain ⟨hdone, rfl⟩ := next_ret hnext
      refine h.keep_state ?_
      rw [hdone]
      exact ⟨rfl, rfl, rfl⟩
  | step t fresh =>
      obtain ⟨m, l, hstep, rfl⟩ := next_step hnext
      obtain ⟨pre, hplaced⟩ := hinv
      cases t with
      | producer =>
          have hproducing := hplaced.producing
          simp only [update_self, update_of_ne (show Role.consumer ≠ .producer by decide)]
          generalize s.threads .producer = p at h hstep hproducing
          cases p with
          | idle | done => cases hstep
          | pop | empty => exact hproducing.elim
          | push pc => exact h.pushStep hstep
      | consumer =>
          have hconsuming := hplaced.consuming
          simp only [update_self, update_of_ne (show Role.producer ≠ .consumer by decide)]
          generalize s.threads .consumer = c at h hstep hconsuming
          cases c with
          | idle | done => cases hstep
          | push => exact hconsuming.elim
          | pop pc =>
              obtain ⟨rfl, rfl⟩ := Prod.ext_iff.mp (Option.some.inj hstep)
              exact h.popStep
          | empty pc =>
              cases hstep
              refine h.keep rfl fun a ha => ?_
              cases pc with
              | checkEmpty =>
                  simp only [emptyStep]
                  split <;> exact ha
              | compare => exact ha

/-- No buffer is lost while the producer and the consumer work, and between
their calls the destructor deletes every buffer exactly once. The allocated
buffers are at each moment those in the lists and in the hands of the two
threads. -/
theorem bufferList_frees_all {s₀ s : State α} {ls : List (Label α)} (hinit : Initial s₀)
    (hfresh : ∀ a, s₀.mem.live a = true → a ≠ 0 ∧ a ∈ s₀.mem.bufToRead :: s₀.mem.cache)
    (hsteps : (system empty).Steps (Disciplined empty) s₀ ls s) :
    (∀ a, s.mem.live a = true ↔ a ∈ owned s.mem (s.threads .producer) (s.threads .consumer)) ∧
      ((∀ t, s.threads t = .idle) → ∃ m', s.mem.destroy = some m' ∧ ∀ a, m'.live a = false) := by
  have hstart : Accounted s₀.mem (s₀.threads .producer) (s₀.threads .consumer) := by
    refine ⟨fun a ha => ?_, fun a ha => (hfresh a ha).1⟩
    have hmem := (hfresh a ha).2
    rw [mem_owned, hinit.idle, hinit.idle]
    simpa [Local.chain, Local.inHand, Local.released, hinit.inUse_nil] using hmem
  have hkept : Inv empty s ∧
      Accounted s.mem (s.threads .producer) (s.threads .consumer) := by
    refine hsteps.preserves (I := fun s => Inv empty s ∧ Accounted s.mem (s.threads .producer)
      (s.threads .consumer)) ⟨⟨[], hinit.placed⟩, hstart⟩ fun u l v hu hguard hnext => ?_
    exact ⟨refines.inv_step u l v hu.1 hguard hnext, hu.2.next hu.1 hnext⟩
  obtain ⟨⟨pre, hplaced⟩, haccounted⟩ := hkept
  refine ⟨fun a => ⟨haccounted.owned a, hplaced.live a⟩, fun hidle => ?_⟩
  have howned : owned s.mem (s.threads .producer) (s.threads .consumer) =
      s.mem.bufToRead :: s.mem.inUse ++ s.mem.cache := by
    simp [owned, hidle, Local.chain, Local.inHand, Local.released]
  have hnodup := hplaced.nodup
  have hlive := hplaced.live
  have haccount := haccounted.owned
  rw [howned] at hnodup hlive haccount
  obtain ⟨m', hdestroy, hfreed⟩ := Mem.destroy_eq hnodup hlive fun a ha =>
    haccounted.ne_zero a (hlive a ha)
  refine ⟨m', hdestroy, fun a => ?_⟩
  by_contra hne
  obtain ⟨hold, hnot⟩ := (hfreed a).mp (by simpa using hne)
  exact hnot (haccount a hold)

def recycled : State Nat :=
  ((system 0).exec (Disciplined 0) oneBuffer recyclingRun).get (by decide +kernel)

theorem bufferList_frees_all_recycled :
    ∃ m', recycled.mem.destroy = some m' ∧ ∀ a, m'.live a = false := by
  have hinit : Initial oneBuffer :=
    ⟨fun _ => rfl, rfl, ⟨0, rfl⟩, rfl, by decide, by decide, by decide⟩
  have hsteps : (system 0).Steps (Disciplined 0) oneBuffer recyclingRun recycled :=
    steps_of_exec (Option.some_get _).symm
  have hidle (t : Role) : recycled.threads t = .idle := by
    cases t <;> decide +kernel
  exact (bufferList_frees_all hinit (by simp [oneBuffer]) hsteps).2 hidle

end Main

end Libni.BufferList
