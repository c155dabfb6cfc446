import Libni.BufferList.Effects

/-!
The steps of the consumer: the three reads after which it abandons its buffer,
the release of the buffer abandoned, and taking the front element.
-/

namespace Libni.BufferList

open Function Libni.Transition
open Libni.RingBuffer (Role)

variable {α : Type*}

variable {empty : α} {m m' : Mem α} {p c c' : Local α} {pre : List Addr} {n : Addr}

/-- The consumer leaves an empty buffer that the producer has left before. The
next one is full, or is the one written. -/
theorem Placed.nextToRead {rest : List Addr} (h : Placed empty m p (.pop .nextToRead) pre)
    (huse : m.inUse = n :: rest) :
    Placed empty { m with inUse := rest } p (.pop (.resetOld n)) pre.tail ∧
      contents { m with inUse := rest } (.pop (.resetOld n)) =
        contents m (.pop .nextToRead) := by
  obtain ⟨hpre, hempty⟩ := h.consuming
  have hchain := h.chain_eq
  obtain ⟨b, pre, rfl⟩ := List.exists_cons_of_ne_nil hpre
  simp only [Local.chain, huse, List.cons_append, List.cons.injEq] at hchain
  obtain ⟨rfl, hchain⟩ := hchain
  have hperm : (owned { m with inUse := rest } p (.pop (.resetOld n))).Perm
      (owned m p (.pop .nextToRead)) := by
    simp only [owned, Local.chain, Local.released, huse, List.append_nil, List.cons_append]
    exact List.perm_append_singleton m.bufToRead (n :: (rest ++ m.cache ++ p.inHand))
  refine ⟨⟨hchain, hperm.nodup_iff.mpr h.nodup, fun a ha => h.live a (hperm.mem_iff.mp ha),
    fun a ha => h.full a (List.mem_of_mem_tail ha), h.unused, ?_, h.size_pos, ?_, ?_⟩, ?_⟩
  · intro a ha
    apply h.proper a
    change a ∈ m.bufToRead :: m.inUse
    rw [huse]
    exact List.mem_cons_of_mem _ ha
  · refine h.producing_keeps rfl le_rfl fun hfull => ?_
    exact Or.inl (hfull.resolve_right fun hnil => hpre hnil.1)
  · change m.buf n ≠ [] ∨ pre = []
    cases pre with
    | nil => exact Or.inr rfl
    | cons x pre =>
        obtain rfl : n = x := (List.cons.inj hchain).1
        exact Or.inl (h.full n (by simp))
  · simp [contents, Local.chain, huse, hempty]

/-- The buffer left is in no list, so resetting it disturbs nobody. -/
theorem Placed.resetOld (h : Placed empty m p (.pop (.resetOld n)) pre) :
    Placed empty (m.setBuf m.bufToRead []) p (.pop (.cacheOld n)) pre ∧
      contents (m.setBuf m.bufToRead []) (.pop (.cacheOld n)) =
        contents m (.pop (.resetOld n)) := by
  have hbuf (a : Addr) (ha : a ≠ m.bufToRead) :
      (m.setBuf m.bufToRead []).buf a = m.buf a := by
    simp [Mem.setBuf, update_of_ne ha]
  have hself : (m.setBuf m.bufToRead []).buf m.bufToRead = [] := by simp [Mem.setBuf]
  have hkeep (a : Addr) (ha : a ∈ Local.chain m (.pop (.resetOld n))) :
      (m.setBuf m.bufToRead []).buf a = m.buf a :=
    hbuf a (h.ne_of_chain ha (by simp [Local.released]))
  have hwrite := hkeep _ h.mem_chain
  refine ⟨⟨h.chain_eq, h.nodup, h.live, ?_, ?_, ?_, h.size_pos, ?_, ?_⟩, ?_⟩
  · intro a ha
    rw [hkeep a (by rw [h.chain_eq]; simp [List.mem_of_mem_tail ha])]
    exact h.full a ha
  · intro a ha
    by_cases hold : a = m.bufToRead
    · rw [hold, hself]
    · rw [hbuf a hold]
      exact h.unused a ha
  · intro a ha
    rw [hkeep a ha]
    exact h.proper a ha
  · refine h.producing_keeps rfl (by change (Mem.buf _ m.bufToWrite).length ≤ _; rw [hwrite])
      fun hfull => ?_
    change (m.setBuf m.bufToRead []).buf m.bufToWrite ≠ [] ∨ _
    rw [hwrite]
    exact hfull
  · refine ⟨?_, hself⟩
    rw [hkeep n List.mem_cons_self]
    exact h.consuming
  · rw [contents, contents]
    exact List.flatMap_congr hkeep

/-- The buffer left goes into the cache, empty as the buffers there are. -/
theorem Placed.cacheOld (h : Placed empty m p (.pop (.cacheOld n)) pre) :
    Placed empty { m with cache := m.cache ++ [m.bufToRead] } p (.pop (.setRead n)) pre := by
  obtain ⟨hnext, hempty⟩ := h.consuming
  have hperm : (owned { m with cache := m.cache ++ [m.bufToRead] } p (.pop (.setRead n))).Perm
      (owned m p (.pop (.cacheOld n))) := by
    simp only [owned, Local.chain, Local.released, List.append_nil, List.append_assoc]
    refine List.Perm.append_left _ (List.Perm.append_left _ List.perm_append_comm)
  refine ⟨h.chain_eq, hperm.nodup_iff.mpr h.nodup, fun a ha => h.live a (hperm.mem_iff.mp ha),
    h.full, ?_, h.proper, h.size_pos, h.producing_keeps rfl le_rfl id, hnext⟩
  intro a ha
  by_cases hold : a = m.bufToRead
  · rw [hold]
    exact hempty
  · apply h.unused a
    simpa [hold] using ha

theorem Placed.deleteOld (h : Placed empty m p (.pop (.deleteOld n)) pre) :
    Placed empty (m.delete m.bufToRead) p (.pop (.setRead n)) pre := by
  have howned : owned m p (.pop (.deleteOld n)) =
      owned (m.delete m.bufToRead) p (.pop (.setRead n)) ++ [m.bufToRead] := by
    simp [owned, Local.chain, Local.released, Mem.delete]
  have hnodup := h.nodup
  rw [howned, List.nodup_append] at hnodup
  refine ⟨h.chain_eq, hnodup.1, ?_, h.full, h.unused, h.proper, h.size_pos,
    h.producing_keeps rfl le_rfl id, h.consuming.1⟩
  intro a ha
  have hne : a ≠ m.bufToRead := hnodup.2.2 a ha _ List.mem_cons_self
  simp only [Mem.delete, update_of_ne hne]
  exact h.live a (by rw [howned]; exact List.mem_append_left _ ha)

theorem Placed.setRead (h : Placed empty m p (.pop (.setRead n)) pre) :
    Placed empty { m with bufToRead := n } p (.pop .popBuffer) pre :=
  ⟨h.chain_eq, h.nodup, h.live, h.full, h.unused, h.proper, h.size_pos,
    h.producing_keeps rfl le_rfl id, h.consuming⟩

/-- The front element leaves the first buffer, which is where the pop takes
effect. -/
theorem Placed.popBuffer {e : α} {rest : List α} (h : Placed empty m p (.pop .popBuffer) pre)
    (hread : m.buf m.bufToRead = e :: rest) :
    Placed empty (m.setBuf m.bufToRead rest) p (.done (.popped e)) pre ∧
      e ≠ empty ∧ contents m (.pop .popBuffer) =
        e :: contents (m.setBuf m.bufToRead rest) (.done (.popped e)) := by
  have hbuf (a : Addr) (ha : a ≠ m.bufToRead) :
      (m.setBuf m.bufToRead rest).buf a = m.buf a := by
    simp [Mem.setBuf, update_of_ne ha]
  have hself : (m.setBuf m.bufToRead rest).buf m.bufToRead = rest := by simp [Mem.setBuf]
  have hhead : m.bufToRead ∈ Local.chain m (.pop .popBuffer) := List.mem_cons_self
  have hnodup : (m.bufToRead :: m.inUse).Nodup := by
    have := h.chain_nodup
    rwa [← h.chain_eq] at this
  have hlater (a : Addr) (ha : a ∈ m.inUse) : a ≠ m.bufToRead := by
    rintro rfl
    exact (List.nodup_cons.mp hnodup).1 ha
  have hproper := h.proper _ hhead
  rw [hread] at hproper
  refine ⟨⟨h.chain_eq, h.nodup, h.live, ?_, ?_, ?_, h.size_pos, ?_, trivial⟩,
    hproper e List.mem_cons_self, ?_⟩
  · intro a ha
    have hchain := h.chain_eq
    cases pre with
    | nil => simp at ha
    | cons x pre =>
        have hmem : a ∈ m.inUse := by
          rw [(List.cons.inj hchain).2]
          exact List.mem_append_left _ ha
        rw [hbuf a (hlater a hmem)]
        exact h.full a ha
  · intro a ha
    have hne : a ≠ m.bufToRead := by
      rintro rfl
      have hnil := h.unused _ ha
      rw [hread] at hnil
      cases hnil
    rw [hbuf a hne]
    exact h.unused a ha
  · intro a ha
    by_cases hr : a = m.bufToRead
    · subst hr
      rw [hself]
      exact fun x hx => hproper x (List.mem_cons_of_mem _ hx)
    · rw [hbuf a hr]
      exact h.proper a ha
  · by_cases hw : m.bufToWrite = m.bufToRead
    · refine h.producing_keeps rfl ?_ fun _ => Or.inr ⟨?_, rfl⟩
      · change (Mem.buf _ m.bufToWrite).length ≤ _
        rw [hw, hself, hread]
        exact Nat.le_succ _
      · exact (h.head_eq_write_iff rfl).mp hw.symm
    · refine h.producing_keeps rfl ?_ fun hfull => Or.inl ?_
      · change (Mem.buf _ m.bufToWrite).length ≤ _
        rw [hbuf _ hw]
      · change Mem.buf _ m.bufToWrite ≠ []
        rw [hbuf _ hw]
        exact hfull.resolve_right fun hnil => hw ((h.head_eq_write_iff rfl).mpr hnil.1).symm
  · simp only [contents, Local.chain, List.flatMap_cons]
    rw [hread]
    change _ = e :: (Mem.buf _ m.bufToRead ++ m.inUse.flatMap _)
    rw [hself, List.flatMap_congr fun a ha => hbuf a (hlater a ha)]
    rfl

/-- A consumer that finds its buffer empty and the producer at it has seen the
list empty. -/
theorem Placed.contents_nil (h : Placed empty m p c pre) (hchain : c.chain m = m.bufToRead :: m.inUse)
    (hempty : m.buf m.bufToRead = []) (hpre : pre = []) : contents m c = [] := by
  rw [h.contents_of_pre_nil hpre, ← (h.head_eq_write_iff hchain).mpr hpre, hempty]

/-- Every step of `pop` keeps the shape, and its readings come from those
before. The two looks at the buffer and the comparison between them are where
the readings differ. -/
theorem popStep_ok {pc : PopPc} (h : Placed empty m p (.pop pc) pre) :
    ∃ pre', Placed empty (popStep empty m pc).1 p (popStep empty m pc).2 pre' ∧
      Back empty .consumer m (.pop pc) (contents m (.pop pc)) (popStep empty m pc).1
        (popStep empty m pc).2 (contents (popStep empty m pc).1 (popStep empty m pc).2) := by
  have hpending (pc : PopPc) (m : Mem α) : Local.Open empty m (.pending .pop) (.pop pc) := by
    cases pc <;> first | rfl | exact Or.inl rfl
  cases pc with
  | checkEmpty =>
      simp only [popStep, List.isEmpty_iff]
      split
      · next hnil =>
          refine ⟨pre, h.consumer rfl rfl id trivial, ?_⟩
          rintro st' (hst | ⟨hsame, rfl⟩)
          · exact ⟨st', hst, Or.inl ⟨rfl, rfl, rfl⟩⟩
          · have hpre := (h.head_eq_write_iff rfl).mp hsame
            have hcontents := h.contents_nil rfl hnil hpre
            exact ⟨_, rfl, .perform (Or.inl ⟨rfl, hcontents, rfl⟩)⟩
      · next hne =>
          refine ⟨pre, h.consumer rfl rfl (fun hfull => ?_) (Or.inl hne),
            .quiet (fun _ => id) rfl⟩
          refine Or.inl (hfull.elim id fun hnil => ?_)
          rw [← (h.head_eq_write_iff rfl).mpr hnil.1]
          exact hne
  | compare =>
      simp only [popStep]
      split
      · next hsame =>
          exact ⟨pre, h.consumer rfl rfl id trivial,
            .quiet (fun st hst => Or.inr ⟨hsame, hst⟩) rfl⟩
      · next hdiff =>
          have hpre := mt (h.head_eq_write_iff rfl).mpr hdiff
          exact ⟨pre, h.consumer rfl rfl id hpre, .quiet (fun st hst => Or.inl hst) rfl⟩
  | checkAgain =>
      simp only [popStep, List.isEmpty_iff]
      split
      · next hnil =>
          exact ⟨pre, h.consumer rfl rfl id ⟨h.consuming, hnil⟩, .quiet (fun _ => id) rfl⟩
      · next hne =>
          refine ⟨pre, h.consumer rfl rfl (fun hfull => ?_) (Or.inl hne),
            .quiet (fun _ => id) rfl⟩
          exact Or.inl (hfull.resolve_right fun hnil => h.consuming hnil.1)
  | nextToRead =>
      simp only [popStep]
      split
      · next huse =>
          -- something comes before the buffer written, so there is a next one
          have hchain := h.chain_eq
          obtain ⟨hpre, _⟩ := h.consuming
          obtain ⟨x, pre, rfl⟩ := List.exists_cons_of_ne_nil hpre
          simp [Local.chain, huse] at hchain
      · next huse =>
          exact ⟨_, (h.nextToRead huse).1, .quiet (fun _ => id) (h.nextToRead huse).2⟩
  | resetOld n => exact ⟨pre, h.resetOld.1, .quiet (fun _ => id) h.resetOld.2⟩
  | cacheOld n =>
      simp only [popStep]
      split
      · exact ⟨pre, h.cacheOld, .quiet (fun _ => id) rfl⟩
      · exact ⟨pre, h.consumer rfl rfl id h.consuming, .quiet (fun _ => id) rfl⟩
  | deleteOld n => exact ⟨pre, h.deleteOld, .quiet (fun _ => id) rfl⟩
  | setRead n => exact ⟨pre, h.setRead, .quiet (fun _ => id) rfl⟩
  | popBuffer =>
      simp only [popStep]
      split
      · next hnil =>
          have hpre : pre = [] := h.consuming.resolve_left fun hne => hne hnil
          have hcontents := h.contents_nil rfl hnil hpre
          exact ⟨pre, h.consumer rfl rfl (fun hfull => hfull.imp_right fun hp => ⟨hp.1, rfl⟩)
            trivial, .perform (hpending _ m) (Or.inl ⟨rfl, hcontents, rfl⟩)⟩
      · next hread =>
          obtain ⟨hplaced, he, hcontents⟩ := h.popBuffer hread
          exact ⟨pre, hplaced, .perform (hpending _ m) (Or.inr ⟨he, hcontents⟩)⟩

theorem emptyStep_ok {pc : EmptyPc} (h : Placed empty m p (.empty pc) pre) :
    Placed empty m p (emptyStep m pc) pre ∧
      Back empty .consumer m (.empty pc) (contents m (.empty pc)) m (emptyStep m pc)
        (contents m (emptyStep m pc)) := by
  cases pc with
  | checkEmpty =>
      simp only [emptyStep, List.isEmpty_iff]
      split
      · next hnil =>
          refine ⟨h.consumer rfl rfl id trivial, ?_⟩
          rintro st' (hst | ⟨hsame, rfl⟩)
          · exact ⟨st', hst, Or.inl ⟨rfl, rfl, rfl⟩⟩
          · have hpre := (h.head_eq_write_iff rfl).mp hsame
            have hcontents := h.contents_nil rfl hnil hpre
            exact ⟨_, rfl, .perform ⟨fun _ => hcontents, rfl⟩⟩
      · exact ⟨h.consumer rfl rfl id trivial, .perform rfl ⟨by simp, rfl⟩⟩
  | compare =>
      refine ⟨h.consumer rfl rfl id trivial, ?_⟩
      by_cases hsame : m.bufToRead = m.bufToWrite
      · simp only [emptyStep, hsame, decide_true]
        exact .quiet (fun st hst => Or.inr ⟨hsame, hst⟩) rfl
      · simp only [emptyStep, hsame, decide_false]
        exact .perform (Or.inl rfl) ⟨by simp, rfl⟩

end Libni.BufferList
