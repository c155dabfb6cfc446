import Libni.BufferList.Effects

/-!
The steps of the producer: checking the buffer written, fetching another one
from the cache or the allocator, publishing it, turning to it and storing the
element.
-/

namespace Libni.BufferList

open Function Libni.Transition
open Libni.RingBuffer (Role)

variable {α : Type*}

variable {empty : α} {m m' : Mem α} {p' c : Local α} {pre : List Addr} {e : α} {b : Addr}

/-- A buffer taken from the cache is in the producer's hand, and in no list. -/
theorem Placed.take {rest : List Addr} (h : Placed empty m (.push (.takeCache e)) c pre)
    (hcache : m.cache = b :: rest) :
    Placed empty { m with cache := rest } (.push (.publish e b)) c pre := by
  have hchain : c.chain { m with cache := rest } = c.chain m := chain_congr rfl rfl c
  have hreleased : c.released { m with cache := rest } = c.released m := released_congr rfl c
  have hperm : (owned { m with cache := rest } (.push (.publish e b)) c).Perm
      (owned m (.push (.takeCache e)) c) := by
    simp only [owned, hchain, hreleased, hcache, Local.inHand, List.append_assoc]
    apply List.Perm.append_left _
    simp
  refine ⟨?_, hperm.nodup_iff.mpr h.nodup, fun a ha => h.live a (hperm.mem_iff.mp ha), h.full,
    ?_, ?_, h.size_pos, h.producing, h.consuming_keeps rfl (fun _ _ hne => hne) fun _ _ _ => rfl⟩
  · rw [hchain]
    exact h.chain_eq
  · intro a ha
    apply h.unused a
    simp only [Local.inHand, Local.post, hcache, List.append_nil, List.mem_append,
      List.mem_cons, List.not_mem_nil, or_false] at ha ⊢
    exact ha.symm
  · rw [hchain]
    exact h.proper

theorem Mem.newBuffer_eq_some : m.newBuffer b = some m' ↔ (b ≠ 0 ∧ m.live b = false) ∧
    { m with buf := update m.buf b [], live := update m.live b true } = m' := by
  simp [Mem.newBuffer]

/-- A new buffer is at an address nobody uses, even if it has been used
before. -/
theorem Placed.allocate (h : Placed empty m (.push (.newBuffer e)) c pre)
    (hnew : m.newBuffer b = some m') :
    Placed empty m' (.push (.publish e b)) c pre ∧ contents m' c = contents m c := by
  obtain ⟨⟨_, hfree⟩, hm'⟩ := Mem.newBuffer_eq_some.mp hnew
  have hread : m'.bufToRead = m.bufToRead := by rw [← hm']
  have hwrite : m'.bufToWrite = m.bufToWrite := by rw [← hm']
  have huse : m'.inUse = m.inUse := by rw [← hm']
  have hcache : m'.cache = m.cache := by rw [← hm']
  have hsize : m'.bufSize = m.bufSize := by rw [← hm']
  have hbufs : m'.buf = update m.buf b [] := by rw [← hm']
  have hlive : m'.live = update m.live b true := by rw [← hm']
  have hout : b ∉ owned m (.push (.newBuffer e)) c := by
    intro hmem
    rw [h.live b hmem] at hfree
    cases hfree
  have hbuf (a : Addr) (ha : a ∈ owned m (.push (.newBuffer e)) c) : m'.buf a = m.buf a := by
    rw [hbufs]
    refine update_of_ne ?_ _ _
    rintro rfl
    exact hout ha
  have hmem {a : Addr} (ha : a ∈ c.chain m) : a ∈ owned m (.push (.newBuffer e)) c := by
    simp [owned, ha]
  have hchain := chain_congr hread huse c
  have hperm : (owned m' (.push (.publish e b)) c).Perm
      (b :: owned m (.push (.newBuffer e)) c) := by
    simp only [owned, hchain, released_congr hread, hcache, Local.inHand, List.append_nil,
      List.append_assoc, List.singleton_append]
    rw [← List.append_assoc, ← List.append_assoc]
    exact List.perm_middle
  refine ⟨⟨?_, ?_, ?_, ?_, ?_, ?_, by rw [hsize]; exact h.size_pos, ?_, ?_⟩, ?_⟩
  · rw [hchain, hwrite]
    exact h.chain_eq
  · exact hperm.nodup_iff.mpr (List.nodup_cons.mpr ⟨hout, h.nodup⟩)
  · intro a ha
    rw [hlive]
    rcases List.mem_cons.mp (hperm.mem_iff.mp ha) with rfl | hold
    · simp
    · by_cases hab : a = b
      · simp [hab]
      · rw [update_of_ne hab]
        exact h.live a hold
  · intro a ha
    have hold : a ∈ c.chain m := by
      rw [h.chain_eq]
      simp [List.mem_of_mem_tail ha]
    rw [hbuf a (hmem hold)]
    exact h.full a ha
  · intro a ha
    rw [hbufs]
    by_cases hab : a = b
    · simp [hab]
    · rw [hcache] at ha
      simp only [Local.inHand, Local.post, List.append_nil, List.mem_append,
        List.mem_singleton, hab, or_false] at ha
      rw [update_of_ne hab]
      exact h.unused a (by simp [ha])
  · intro a ha
    rw [hchain] at ha
    rw [hbuf a (hmem ha)]
    exact h.proper a ha
  · refine ⟨h.producing.1, ?_⟩
    rw [Local.Full, hwrite, hbuf _ (hmem h.mem_chain)]
    exact h.producing.2
  · refine h.consuming_keeps hread (fun a ha hne => ?_) fun a ha _ => hbuf a ?_
    · rw [hbuf a (hmem ha)]
      exact hne
    · simp only [owned, List.mem_append] at ha ⊢
      tauto
  · exact contents_congr hchain fun a ha => hbuf a (hmem ha)

/-- The buffer in hand becomes the last one to be read; it is still empty, so
the contents stay. -/
theorem Placed.publish (h : Placed empty m (.push (.publish e b)) c pre) :
    Placed empty { m with inUse := m.inUse ++ [b] } (.push (.setWrite e b)) c pre ∧
      contents { m with inUse := m.inUse ++ [b] } c = contents m c := by
  have hchain : c.chain { m with inUse := m.inUse ++ [b] } = c.chain m ++ [b] := by
    unfold Local.chain
    split <;> rfl
  have hreleased : c.released { m with inUse := m.inUse ++ [b] } = c.released m :=
    released_congr rfl c
  have hempty : m.buf b = [] := h.unused b (by simp [Local.inHand])
  have hperm : (owned { m with inUse := m.inUse ++ [b] } (.push (.setWrite e b)) c).Perm
      (owned m (.push (.publish e b)) c) := by
    simp only [owned, hchain, hreleased, Local.inHand, List.append_nil, List.append_assoc]
    apply List.Perm.append_left _
    rw [← List.append_assoc, ← List.append_assoc]
    exact List.Perm.append_right _ List.perm_append_comm
  refine ⟨⟨?_, hperm.nodup_iff.mpr h.nodup, fun a ha => h.live a (hperm.mem_iff.mp ha),
    h.full, ?_, ?_, h.size_pos, h.producing,
    h.consuming_keeps rfl (fun _ _ hne => hne) fun _ _ _ => rfl⟩, ?_⟩
  · rw [hchain, h.chain_eq]
    simp [Local.post]
  · intro a ha
    apply h.unused a
    simpa [Local.inHand, Local.post] using ha
  · intro a ha
    rw [hchain, List.mem_append, List.mem_singleton] at ha
    rcases ha with hold | rfl
    · exact h.proper a hold
    · simp [hempty]
  · rw [contents, contents, hchain, List.flatMap_append]
    simp [hempty]

/-- The producer turns to the buffer it published. The one it leaves is not
empty, or is the consumer's as well. -/
theorem Placed.setWrite (h : Placed empty m (.push (.setWrite e b)) c pre) :
    Placed empty { m with bufToWrite := b } (.push (.store e)) c (pre ++ [m.bufToWrite]) := by
  have hchain : c.chain { m with bufToWrite := b } = c.chain m := chain_congr rfl rfl c
  have hreleased : c.released { m with bufToWrite := b } = c.released m := released_congr rfl c
  have hempty : m.buf b = [] := h.unused b (by simp [Local.post])
  obtain ⟨he, hfull⟩ := h.producing
  refine ⟨?_, ?_, ?_, ?_, ?_, by rw [hchain]; exact h.proper, h.size_pos, ⟨he, ?_⟩, ?_⟩
  · rw [hchain, h.chain_eq]
    simp [Local.post]
  · rw [owned, hchain, hreleased]
    exact h.nodup
  · rw [owned, hchain, hreleased]
    exact h.live
  · intro a ha
    cases pre with
    | nil => simp at ha
    | cons x pre =>
        rcases List.mem_append.mp ha with hold | hlast
        · exact h.full a hold
        · rw [List.mem_singleton.mp hlast]
          exact hfull.resolve_right fun hnil => by simp at hnil
  · intro a ha
    apply h.unused a
    simp only [Local.inHand, Local.post, List.append_nil, List.mem_append] at ha ⊢
    exact Or.inl ha
  · rw [show ({ m with bufToWrite := b } : Mem α).buf b = [] from hempty]
    exact h.size_pos
  · have hc := h.consuming
    -- a consumer about to read the buffer left finds it full
    have hleft {a : Addr} (hfresh : c.fresh = true) (ha : c.chain m = a :: m.inUse)
        (hor : m.buf a ≠ [] ∨ pre = []) : m.buf a ≠ [] := by
      rcases hor with hne | hnil
      · exact hne
      · rw [(h.head_eq_write_iff ha).mpr hnil]
        exact hfull.resolve_right fun hboth => by simp [hfresh] at hboth
    cases c with
    | idle | done | empty => trivial
    | push => exact hc
    | pop pc =>
        cases pc with
        | checkEmpty | compare => trivial
        | checkAgain => simp [Local.Consuming]
        | nextToRead => exact ⟨by simp, hc.2⟩
        | resetOld next | setRead next => exact Or.inl (hleft rfl rfl hc)
        | cacheOld next | deleteOld next => exact ⟨Or.inl (hleft rfl rfl hc.1), hc.2⟩
        | popBuffer => exact Or.inl (hleft rfl rfl hc)

/-- The element goes behind everything stored, which is where the push takes
effect. -/
theorem Placed.store (h : Placed empty m (.push (.store e)) c pre) :
    Placed empty (m.setBuf m.bufToWrite (ringPush m.bufSize (m.buf m.bufToWrite) e))
        (.done .pushed) c pre ∧
      contents (m.setBuf m.bufToWrite (ringPush m.bufSize (m.buf m.bufToWrite) e)) c =
        contents m c ++ [e] := by
  obtain ⟨he, hroom⟩ := h.producing
  rw [ringPush, if_pos hroom]
  have hbuf (a : Addr) (ha : a ≠ m.bufToWrite) :
      (m.setBuf m.bufToWrite (m.buf m.bufToWrite ++ [e])).buf a = m.buf a := by
    simp [Mem.setBuf, update_of_ne ha]
  have hself : (m.setBuf m.bufToWrite (m.buf m.bufToWrite ++ [e])).buf m.bufToWrite =
      m.buf m.bufToWrite ++ [e] := by simp [Mem.setBuf]
  have hchain : c.chain (m.setBuf m.bufToWrite (m.buf m.bufToWrite ++ [e])) = c.chain m :=
    chain_congr rfl rfl c
  have hpre (a : Addr) (ha : a ∈ pre) : a ≠ m.bufToWrite := by
    rintro rfl
    exact h.notMem_pre ha
  have hplaced : Placed empty (m.setBuf m.bufToWrite (m.buf m.bufToWrite ++ [e]))
      (.done .pushed) c pre := by
    refine ⟨by rw [hchain]; exact h.chain_eq, ?_, ?_, ?_, ?_, ?_, h.size_pos, trivial, ?_⟩
    · rw [owned, hchain, released_congr rfl]
      exact h.nodup
    · rw [owned, hchain, released_congr rfl]
      exact h.live
    · intro a ha
      rw [hbuf a (hpre a (List.mem_of_mem_tail ha))]
      exact h.full a ha
    · intro a ha
      have hcache : a ∈ m.cache := by
        simpa [Local.inHand, Local.post, Mem.setBuf] using ha
      rw [hbuf a (h.ne_of_chain h.mem_chain (by simp [hcache])).symm]
      exact h.unused a (by simp [hcache])
    · intro a ha
      rw [hchain] at ha
      by_cases hw : a = m.bufToWrite
      · subst hw
        rw [hself]
        intro x hx
        rcases List.mem_append.mp hx with hold | hnew
        · exact h.proper _ ha x hold
        · rw [List.mem_singleton.mp hnew]
          exact he
      · rw [hbuf a hw]
        exact h.proper a ha
    · refine h.consuming_keeps rfl (fun a ha hne => ?_) fun a _ hw => hbuf a hw
      by_cases hw : a = m.bufToWrite
      · subst hw
        simp [hself]
      · rwa [hbuf a hw]
  refine ⟨hplaced, ?_⟩
  rw [hplaced.contents_eq, h.contents_eq]
  change pre.flatMap _ ++ (m.setBuf _ _).buf m.bufToWrite = _
  rw [hself, List.append_assoc, List.flatMap_congr fun a ha => hbuf a (hpre a ha)]

/-- Every step of `push` keeps the shape, and its readings come from those
before. -/
theorem pushStep_ok {pc : PushPc α} {fresh : Addr} (h : Placed empty m (.push pc) c pre)
    (hstep : pushStep m fresh pc = some (m', p')) :
    ∃ pre', Placed empty m' p' c pre' ∧
      Back empty .producer m (.push pc) (contents m c) m' p' (contents m' c) := by
  cases pc with
  | checkAvailable e =>
      simp only [pushStep] at hstep
      split at hstep
      · next hroom =>
          cases hstep
          exact ⟨pre, h.producer rfl rfl ⟨h.producing, hroom⟩, .quiet (fun _ => id) rfl⟩
      · next hfull =>
          cases hstep
          have hne : m.buf m.bufToWrite ≠ [] := by
            intro hnil
            rw [hnil] at hfull
            exact hfull h.size_pos
          exact ⟨pre, h.producer rfl rfl ⟨h.producing, Or.inl hne⟩, .quiet (fun _ => id) rfl⟩
  | takeCache e =>
      simp only [pushStep] at hstep
      split at hstep
      · cases hstep
        exact ⟨pre, h.producer rfl rfl h.producing, .quiet (fun _ => id) rfl⟩
      · next hcache =>
          cases hstep
          exact ⟨pre, h.take hcache,
            .quiet (fun _ => id) (contents_congr (chain_congr rfl rfl c) fun _ _ => rfl)⟩
  | newBuffer e =>
      simp only [pushStep, Option.map_eq_some_iff] at hstep
      obtain ⟨_, hnew, ⟨⟩⟩ := hstep
      exact ⟨pre, (h.allocate hnew).1, .quiet (fun _ => id) (h.allocate hnew).2⟩
  | publish e b =>
      cases hstep
      exact ⟨pre, h.publish.1, .quiet (fun _ => id) h.publish.2⟩
  | setWrite e b =>
      cases hstep
      exact ⟨_, h.setWrite,
        .quiet (fun _ => id) (contents_congr (chain_congr rfl rfl c) fun _ _ => rfl)⟩
  | store e =>
      cases hstep
      have hpending : Local.Open empty m (.pending (.push e)) (.push (.store e)) := rfl
      exact ⟨pre, h.store.1, .perform hpending h.store.2⟩

end Libni.BufferList
