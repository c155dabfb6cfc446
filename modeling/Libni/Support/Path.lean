import Mathlib.Data.List.Basic
import Mathlib.Data.List.Nodup

/-!
Null-terminated singly linked lists. `Path null next a l` says that following
`next` from `a` visits exactly the nodes of `l` and then meets `null`. The list
is determined by its start, so it can be used as the abstract value of a
structure in memory; the lemmas say how it changes when a node is appended or
the first one dropped, and how a successor is placed in it.
-/

namespace Libni.Support

variable {α : Type*} {null : α} {next next' : α → α} {a x n : α} {l l' : List α}

/-- Following `next` from `a` visits the nodes of the list, none of them null,
and then meets `null`. -/
def Path (null : α) (next : α → α) : α → List α → Prop
  | a, [] => a = null
  | a, b :: l => b = a ∧ a ≠ null ∧ Path null next (next a) l

namespace Path

/-- The list is determined by its start, so that it can serve as the contents
of the structure. -/
theorem unique (h : Path null next a l) (h' : Path null next a l') : l = l' := by
  induction l generalizing a l' with
  | nil =>
      cases l' with
      | nil => rfl
      | cons b l' => exact absurd h h'.2.1
  | cons b l ih =>
      cases l' with
      | nil => exact absurd h' h.2.1
      | cons b' l' =>
          rw [h.1, h'.1, ih h.2.2 h'.2.2]

/-- Only the successors of the visited nodes matter. A change of `next`
elsewhere, such as the initialization of a node that is not linked yet, leaves
the path as it is. -/
theorem congr (h : Path null next a l) (hnext : ∀ y ∈ l, next' y = next y) :
    Path null next' a l := by
  induction l generalizing a with
  | nil => exact h
  | cons b l ih =>
      obtain ⟨rfl, hb, htail⟩ := h
      refine ⟨rfl, hb, ?_⟩
      rw [hnext b (by simp)]
      exact ih htail fun y hy => hnext y (by simp [hy])

theorem null_notMem (h : Path null next a l) : null ∉ l := by
  induction l generalizing a with
  | nil => simp
  | cons b l ih =>
      obtain ⟨rfl, hb, htail⟩ := h
      simp only [List.mem_cons, not_or]
      exact ⟨fun heq => hb heq.symm, ih htail⟩

theorem eq_cons (h : Path null next a l) (ha : a ≠ null) :
    ∃ rest, l = a :: rest ∧ Path null next (next a) rest := by
  cases l with
  | nil => exact absurd h ha
  | cons b rest => exact ⟨rest, by rw [h.1], h.2.2⟩

theorem mem_start (h : Path null next a l) (ha : a ≠ null) : a ∈ l := by
  obtain ⟨rest, rfl, _⟩ := h.eq_cons ha
  simp

/-- From a visited node on, the rest of the list is again a path. -/
theorem suffix (h : Path null next a l) (hx : x ∈ l) :
    ∃ before after, l = before ++ x :: after ∧ Path null next (next x) after := by
  induction l generalizing a with
  | nil => simp at hx
  | cons b l ih =>
      obtain ⟨rfl, _, htail⟩ := h
      rcases List.mem_cons.mp hx with rfl | hrest
      · exact ⟨[], l, rfl, htail⟩
      · obtain ⟨before, after, rfl, hafter⟩ := ih htail hrest
        exact ⟨b :: before, after, rfl, hafter⟩

/-- No node is visited twice, since the rest of the path would then be its own
proper part. -/
theorem nodup (h : Path null next a l) : l.Nodup := by
  induction l generalizing a with
  | nil => simp
  | cons b l ih =>
      obtain ⟨rfl, _, htail⟩ := h
      refine List.nodup_cons.mpr ⟨?_, ih htail⟩
      intro hb
      -- a node met twice would start two paths of different lengths
      obtain ⟨before, after, hl, hafter⟩ := htail.suffix hb
      have hlen := congrArg List.length (htail.unique hafter)
      rw [hl] at hlen
      simp at hlen
      omega

theorem next_mem (h : Path null next a l) (hx : x ∈ l) (hne : next x ≠ null) :
    next x ∈ l := by
  obtain ⟨before, after, rfl, hafter⟩ := h.suffix hx
  have := hafter.mem_start hne
  simp [this]

theorem last_of_next_null (h : Path null next a l) (hx : x ∈ l)
    (hnull : next x = null) : ∃ before, l = before ++ [x] := by
  obtain ⟨before, after, rfl, hafter⟩ := h.suffix hx
  cases after with
  | nil => exact ⟨before, rfl⟩
  | cons b after => exact absurd hnull hafter.2.1

/-- Linking a new node behind the last one. The successors of the nodes before
it must stay, and the new node must end the list. -/
theorem snoc (h : Path null next a (l ++ [x])) (hn : n ≠ null)
    (hold : ∀ y ∈ l, next' y = next y) (hlink : next' x = n) (hend : next' n = null) :
    Path null next' a (l ++ [x] ++ [n]) := by
  induction l generalizing a with
  | nil =>
      obtain ⟨rfl, ha, _⟩ := h
      refine ⟨rfl, ha, ?_⟩
      rw [hlink]
      exact ⟨rfl, hn, hend⟩
  | cons b l ih =>
      obtain ⟨rfl, ha, htail⟩ := h
      refine ⟨rfl, ha, ?_⟩
      rw [hold b (by simp)]
      exact ih htail fun y hy => hold y (by simp [hy])

section Position

variable [DecidableEq α]

theorem idxOf_next (h : Path null next a l) (hx : x ∈ l) (hne : next x ≠ null) :
    l.idxOf (next x) = l.idxOf x + 1 := by
  obtain ⟨before, after, rfl, hafter⟩ := h.suffix hx
  obtain ⟨rest, rfl, _⟩ := hafter.eq_cons hne
  have hnodup := h.nodup
  simp only [List.nodup_append, List.nodup_cons, List.mem_cons] at hnodup
  obtain ⟨_, ⟨hx', _⟩, hdisj⟩ := hnodup
  have hxb : x ∉ before := fun hmem => hdisj x hmem x (by simp) rfl
  have hnb : next x ∉ before := fun hmem => hdisj _ hmem (next x) (by simp) rfl
  have hxn : x ≠ next x := fun heq => hx' (Or.inl heq)
  rw [List.idxOf_append_of_notMem hxb, List.idxOf_append_of_notMem hnb,
    List.idxOf_cons_ne _ hxn, List.idxOf_cons_self, List.idxOf_cons_self]

/-- No node leads back to the start, which would otherwise be visited twice. -/
theorem next_ne_start (h : Path null next a l) (ha : a ≠ null) (hx : x ∈ l) :
    next x ≠ a := by
  intro heq
  have hidx := h.idxOf_next hx (by rwa [heq])
  obtain ⟨rest, rfl, _⟩ := h.eq_cons ha
  rw [heq] at hidx
  simp at hidx

end Position

end Path

end Libni.Support
