import Libni.Logging.Collection
import Libni.Logging.Order

/-!
How the worker divides its pops among the channels. A pass takes at most one
message from each channel, in the order of `m_channels`, which only grows at its
end and names no channel twice. So between two visits to a channel that holds
messages every other channel is visited at most once, wherever in a pass the
count begins and whatever the threads do.
-/

namespace Libni.Logging

open Function Libni.Transition Libni.Transition.System
open Libni.RingBuffer (PopPc)

/-- Going around a list of channels from index `v` on, index `j` comes before
index `i`. -/
def ComesFirst (v j i : Nat) : Prop :=
  v ≤ i ∧ v ≤ j ∧ j < i ∨ i < v ∧ (v ≤ j ∨ j < i)

/-- Going on by one index that is not `i` changes nothing about what comes
before `i`. -/
theorem ComesFirst.of_skip {v j i : Nat} (h : ComesFirst (v + 1) j i) (hne : v ≠ i) :
    ComesFirst v j i := by
  unfold ComesFirst at *
  omega

theorem comesFirst_self {j i : Nat} (hne : j ≠ i) : ComesFirst j j i := by
  unfold ComesFirst
  omega

theorem not_comesFirst_succ {j i : Nat} : ¬ ComesFirst (j + 1) j i := by
  unfold ComesFirst
  omega

theorem ComesFirst.of_wrap {v j i : Nat} (h : ComesFirst 0 j i) (hv : i < v) :
    ComesFirst v j i := by
  unfold ComesFirst at *
  omega

/-- A list that grows at its end only brings an index further back. -/
theorem ComesFirst.of_le {j j' i : Nat} (h : ComesFirst 0 j' i) (hle : j ≤ j') :
    ComesFirst 0 j i := by
  unfold ComesFirst at *
  omega

section Turns

variable {τ ι : Type*}

/-- The index of the next channel from which the worker may take a message. -/
def PassPc.visits : PassPc τ ι → Nat
  | .collecting _ | .placing _ => 0
  | .scan index => index
  | .popping index _ (.nextIndex _) | .popping index _ (.setIndex _ _) => index + 1
  | .popping index _ _ => index
  | .saving index _ => index + 1

/-- The worker is at the channel that its index names. -/
def PassPc.At (channels : List τ) : PassPc τ ι → Prop
  | .popping index t _ => channels[index]? = some t
  | .saving index message => channels[index]? = some message.thread
  | _ => True

variable [DecidableEq τ] [DecidableEq ι] {c : Setup ι} {s s' : Delivery τ ι} {t : τ}

/-- What the worker has popped from channel `t`, in order, whether or not it
has been saved. -/
def Delivery.taken (s : Delivery τ ι) (t : τ) : List (LogMessage τ ι) :=
  s.savedOf t ++ s.worker.hand t

/-- One access of a pop leaves the worker where it is, finds the channel empty
or takes its first message. -/
theorem Ordered.popStep_cases (h : Ordered c s) {index : Nat}
    {pc : PopPc (Option (LogMessage τ ι))} (hpc : s.worker = .popping index t pc)
    (hs' : s' = s.popStep index t pc) :
    (s'.worker.visits = s.worker.visits ∧ ∀ u, s'.worker.hand u = s.worker.hand u) ∨
      s.worker.visits = index ∧ s'.worker.visits = index + 1 ∧ (∀ u, s.worker.hand u = []) ∧
        (s.stored t = [] ∧ (∀ u, s'.worker.hand u = []) ∨
          ∃ m, ∀ u, s'.worker.hand u = if t = u then [m] else []) := by
  have hrole : s.worker.role t = .pop pc := by
    rw [hpc, PassPc.role, if_pos rfl]
  have hinv := h.conserved.link t
  have hlayout := hinv.layout
  have hconsuming := hinv.consuming
  change (s.worker.role t).Consuming (s.channel t) (s.stored t) at hconsuming
  rw [hrole] at hconsuming
  subst hs'
  rw [hpc]
  cases pc with
  | loadIndex => exact .inl ⟨rfl, fun u => rfl⟩
  | loadSlot i =>
      simp only [Delivery.popStep, RingBuffer.popStep]
      by_cases hempty : (s.channel t).buf i = none
      · rw [if_pos hempty]
        refine .inr ⟨rfl, rfl, fun u => by simp [PassPc.hand, popped], .inl ⟨?_, fun u => rfl⟩⟩
        have hfront : (s.link t).front = i := by
          change (s.worker.role t).front (s.channel t) = i
          rw [hrole]
          exact Eq.symm hconsuming
        rw [← hfront] at hempty
        exact hlayout.front_slot_eq_empty.mp hempty
      · rw [if_neg hempty]
        exact .inl ⟨rfl, fun u => rfl⟩
  | clearIndex e => exact .inl ⟨rfl, fun u => rfl⟩
  | clearSlot e i =>
      have hproper : e ≠ none := hlayout.proper e (List.mem_of_head? hconsuming.2)
      obtain ⟨m, rfl⟩ := Option.ne_none_iff_exists'.mp hproper
      exact .inr ⟨rfl, rfl, fun u => by simp [PassPc.hand, popped], .inr ⟨m, fun u => rfl⟩⟩
  | nextIndex e => exact .inl ⟨rfl, fun u => by cases e <;> rfl⟩
  | setIndex e i =>
      cases e with
      | none => exact .inl ⟨rfl, fun u => (ite_self []).symm⟩
      | some m =>
          obtain rfl : m.thread = t :=
            (h.numbered.accepted t m (h.conserved.popped_accepted hpc (.head _))).1
          exact .inl ⟨rfl, fun u => rfl⟩

/-- What a pop returns is a message of the channel it is from. -/
theorem Ordered.popStep_at (h : Ordered c s) {index : Nat}
    {pc : PopPc (Option (LogMessage τ ι))} (hpc : s.worker = .popping index t pc)
    (hat : s.channels[index]? = some t) :
    (s.popStep index t pc).worker.At (s.popStep index t pc).channels := by
  unfold Delivery.popStep
  rw [← Prod.eta (RingBuffer.popStep none (s.channel t) pc)]
  rcases popStep_local (s.channel t) pc with ⟨pc', hl⟩ | ⟨element, hl, hpopped, _⟩
  · rw [hl]
    exact hat
  · rw [hl]
    cases element with
    | none => trivial
    | some m =>
        have hmem : m ∈ s.accepted t :=
          h.conserved.popped_accepted hpc (by rw [hpopped]; exact .head _)
        change s.channels[index]? = some m.thread
        rw [(h.numbered.accepted t m hmem).1]
        exact hat

theorem Delivery.popStep_frame (s : Delivery τ ι) (index : Nat) (t : τ)
    (pc : PopPc (Option (LogMessage τ ι))) :
    (s.popStep index t pc).channels = s.channels ∧ (s.popStep index t pc).saved = s.saved := by
  unfold Delivery.popStep
  split <;> exact ⟨rfl, rfl⟩

theorem Delivery.savedOf_save {index : Nat} {message : LogMessage τ ι}
    (hpc : s.worker = .saving index message) (u : τ) :
    (s.work c).savedOf u = s.savedOf u ++ s.worker.hand u := by
  rw [Delivery.work, hpc]
  simp only [Delivery.savedOf, Delivery.save, PassPc.hand, List.map_append, List.filter_append,
    List.map_cons, List.map_nil]
  by_cases hu : message.thread = u <;> simp [hu]

/-- What the worker relies on when it goes from channel to channel: no channel
is listed twice, and its index names the one it is at. -/
structure Visiting (c : Setup ι) (s : Delivery τ ι) : Prop where
  ordered : Ordered c s
  nodup : s.channels.Nodup
  worker_at : s.worker.At s.channels

theorem Visiting.idxOf_eq (h : Visiting c s) {index : Nat} (hget : s.channels[index]? = some t) :
    s.channels.idxOf t = index := by
  obtain ⟨hlt, hget⟩ := List.getElem?_eq_some_iff.mp hget
  rw [← hget]
  exact h.nodup.idxOf_getElem index hlt

theorem Ordered.work_at (h : Ordered c s) (hat : s.worker.At s.channels) :
    (s.work c).worker.At (s.work c).channels := by
  unfold Delivery.work
  split
  · split <;> trivial
  · trivial
  · split
    · next hget => exact hget
    · trivial
  · next index t pc hpc =>
      rw [hpc] at hat
      exact h.popStep_at hpc hat
  · trivial

/-- A thread leaves the worker alone, and what the worker has not yet popped
only grows. -/
theorem thread_frame {a : Action τ ι} (ha : a ≠ .work)
    (hnext : (delivery τ c).next s a = some s') :
    s'.worker = s.worker ∧ s'.channels = s.channels ∧ s'.saved = s.saved ∧
      ∀ u, (s.accepted u).length ≤ (s'.accepted u).length := by
  cases a with
  | capture t logger severity =>
      rcases Delivery.capture_cases hnext with rfl | ⟨i, _, _, rfl⟩
      · exact ⟨rfl, rfl, rfl, fun u => le_rfl⟩
      · exact ⟨rfl, rfl, rfl, fun u => le_rfl⟩
  | step t =>
      rcases Delivery.logStep_cases hnext with ⟨message, pc, _, rfl⟩ | ⟨message, pc, _, rfl⟩
      · unfold Delivery.registerStep
        split <;> exact ⟨rfl, rfl, rfl, fun u => le_rfl⟩
      · unfold Delivery.pushStep
        split
        · refine ⟨rfl, rfl, rfl, fun u => ?_⟩
          by_cases hu : u = t
          · subst hu
            simp
          · simp [update_of_ne hu]
        · exact ⟨rfl, rfl, rfl, fun u => le_rfl⟩
        · split <;> exact ⟨rfl, rfl, rfl, fun u => le_rfl⟩
  | work => exact absurd rfl ha

theorem Visiting.of_run {as : List (Action τ ι)} (h : (delivery τ c).Run Free as s) :
    Visiting c s := by
  have hinv : Ordered c s ∧ s.worker.At s.channels := by
    apply h.invariant (I := fun s => Ordered c s ∧ s.worker.At s.channels)
    · rintro _ rfl
      exact ⟨.initial c, trivial⟩
    · rintro u a v ⟨hordered, hat⟩ _ hnext
      refine ⟨hordered.next hnext, ?_⟩
      by_cases ha : a = .work
      · subst ha
        cases hnext
        exact hordered.work_at hat
      · obtain ⟨hworker, hchannels, _⟩ := thread_frame ha hnext
        rw [hworker, hchannels]
        exact hat
  exact ⟨hinv.1, Delivery.channels_nodup h, hinv.2⟩

/-- At most one message of `other` beyond the first `n` is popped, and none
before the worker comes to it, unless it has come to `channel`. -/
structure Turn (n : Nat) (channel other : τ) (s : Delivery τ ι) : Prop where
  most : (s.taken other).length ≤ n + 1
  first : s.worker.hand channel = [] →
    ComesFirst s.worker.visits (s.channels.idxOf other) (s.channels.idxOf channel) →
      (s.taken other).length ≤ n

variable {n : Nat} {channel other : τ}

omit [DecidableEq ι] in
theorem Delivery.taken_eq (hsaved : s'.saved = s.saved)
    (hhand : s'.worker.hand t = s.worker.hand t) : s'.taken t = s.taken t := by
  rw [Delivery.taken, hhand, Delivery.savedOf, hsaved]
  rfl

omit [DecidableEq ι] in
theorem Turn.keep (h : Turn n channel other s)
    (htaken : (s'.taken other).length = (s.taken other).length)
    (hhand : s'.worker.hand channel = s.worker.hand channel)
    (hfirst : ComesFirst s'.worker.visits (s'.channels.idxOf other) (s'.channels.idxOf channel) →
      ComesFirst s.worker.visits (s.channels.idxOf other) (s.channels.idxOf channel)) :
    Turn n channel other s' := by
  constructor
  · rw [htaken]
    exact h.most
  · intro hempty hcomes
    rw [htaken]
    exact h.first (hhand ▸ hempty) (hfirst hcomes)

omit [DecidableEq ι] in
/-- The worker has no message in its hands, neither before nor after it. -/
theorem Turn.idle (h : Turn n channel other s) (hsaved : s'.saved = s.saved)
    (hhand : ∀ u, s.worker.hand u = []) (hhand' : ∀ u, s'.worker.hand u = [])
    (hfirst : ComesFirst s'.worker.visits (s'.channels.idxOf other) (s'.channels.idxOf channel) →
      ComesFirst s.worker.visits (s.channels.idxOf other) (s.channels.idxOf channel)) :
    Turn n channel other s' := by
  have htaken : s'.taken other = s.taken other :=
    Delivery.taken_eq hsaved (by rw [hhand, hhand'])
  exact h.keep (congrArg List.length htaken) (by rw [hhand, hhand']) hfirst

/-- A pop from `other` uses up its turn. The worker does not come to it again
without coming to `channel`, which holds a message and so is not passed by. -/
theorem Turn.popStep (h : Turn n channel other s) (hv : Visiting c s)
    (hmem : channel ∈ s.channels) (hne : other ≠ channel)
    (hheld : s.worker.hand channel = [] → s.stored channel ≠ []) {index : Nat}
    {pc : PopPc (Option (LogMessage τ ι))} (hpc : s.worker = .popping index t pc) :
    Turn n channel other (s.popStep index t pc) := by
  have hat := hv.worker_at
  rw [hpc] at hat
  have hat : s.channels[index]? = some t := hat
  obtain ⟨hchannels, hsaved⟩ := s.popStep_frame index t pc
  have hskip (u : τ) (hu : u ∈ s.channels) (ht : t ≠ u) : index ≠ s.channels.idxOf u := by
    rintro rfl
    rw [List.getElem?_idxOf hu] at hat
    exact ht (Option.some.inj hat).symm
  rcases hv.ordered.popStep_cases hpc rfl with
    ⟨hvisits, hhand⟩ | ⟨hvisits, hvisits', hhand, hresult⟩
  · refine h.keep ?_ (hhand channel) ?_
    · rw [Delivery.taken_eq hsaved (hhand other)]
    · rw [hvisits, hchannels]
      exact id
  rcases hresult with ⟨hstored, hhand'⟩ | ⟨m, hhand'⟩
  · -- `channel` holds a message, so this is another one
    have ht : t ≠ channel := by
      rintro rfl
      exact hheld (hhand t) hstored
    apply h.idle hsaved hhand hhand'
    rw [hvisits, hvisits', hchannels]
    intro hcomes
    exact hcomes.of_skip (hskip channel hmem ht)
  · have htaken : ((s.popStep index t pc).taken other).length =
        (s.taken other).length + if t = other then 1 else 0 := by
      rw [Delivery.taken, Delivery.taken, Delivery.savedOf, hsaved, hhand, hhand']
      split <;> simp [Delivery.savedOf]
    by_cases ht : t = other
    · subst ht
      have hindex : s.channels.idxOf t = index := hv.idxOf_eq hat
      have hother : index ≠ s.channels.idxOf channel := hskip channel hmem hne
      have hfirst := h.first (hhand channel)
      rw [hvisits, hindex] at hfirst
      have hmost := hfirst (comesFirst_self hother)
      rw [if_pos rfl] at htaken
      constructor
      · omega
      · intro _ hcomes
        rw [hvisits', hchannels, hindex] at hcomes
        exact absurd hcomes not_comesFirst_succ
    · rw [if_neg ht] at htaken
      by_cases hchannel : t = channel
      · constructor
        · rw [htaken]
          exact h.most
        · intro hempty
          rw [hhand', if_pos hchannel] at hempty
          cases hempty
      · apply h.keep htaken
        · rw [hhand, hhand', if_neg hchannel]
        · rw [hvisits, hvisits', hchannels]
          exact fun hcomes => hcomes.of_skip (hskip channel hmem hchannel)

/-- Every access of the worker keeps to the turn until it has saved a message
of `channel`. -/
theorem Turn.work (h : Turn n channel other s) (hv : Visiting c s) (hmem : channel ∈ s.channels)
    (hne : other ≠ channel) (hheld : s.worker.hand channel = [] → s.stored channel ≠ [])
    (hunsaved : (s.work c).savedOf channel = s.savedOf channel) :
    Turn n channel other (s.work c) := by
  have hlt : s.channels.idxOf channel < s.channels.length := List.idxOf_lt_length_of_mem hmem
  cases hpc : s.worker with
  | collecting pc =>
      have hhand (u : τ) : s.worker.hand u = [] := by rw [hpc]; rfl
      unfold Delivery.work
      rw [hpc]
      simp only
      split
      all_goals
        refine h.idle rfl hhand (fun u => rfl) ?_
        rw [hpc]
        exact id
  | placing t =>
      have hhand (u : τ) : s.worker.hand u = [] := by rw [hpc]; rfl
      unfold Delivery.work
      rw [hpc]
      refine h.idle rfl hhand (fun u => rfl) ?_
      -- the new channel comes behind `channel`
      have hgrows : s.channels.idxOf other ≤ (s.channels ++ [t]).idxOf other :=
        (List.prefix_append s.channels [t]).idxOf_le other
      change ComesFirst 0 _ ((s.channels ++ [t]).idxOf channel) → _
      rw [hpc, List.idxOf_append_of_mem hmem]
      intro hcomes
      exact hcomes.of_le hgrows
  | scan index =>
      have hhand (u : τ) : s.worker.hand u = [] := by rw [hpc]; rfl
      unfold Delivery.work
      rw [hpc]
      simp only
      split
      · refine h.idle rfl hhand (fun u => ite_self []) ?_
        rw [hpc]
        exact id
      · next hnone =>
          have hend : s.channels.length ≤ index := List.getElem?_eq_none_iff.mp hnone
          refine h.idle rfl hhand (fun u => rfl) ?_
          rw [hpc]
          intro hcomes
          exact hcomes.of_wrap (hlt.trans_le hend)
  | popping index t pc =>
      have hwork : s.work c = s.popStep index t pc := by
        rw [Delivery.work, hpc]
      rw [hwork]
      exact h.popStep hv hmem hne hheld hpc
  | saving index m =>
      have hworker : (s.work c).worker = .scan (index + 1) := by
        rw [Delivery.work, hpc]
      have hchannels : (s.work c).channels = s.channels := by
        rw [Delivery.work, hpc]
        rfl
      have hsave := Delivery.savedOf_save (c := c) hpc
      apply h.keep
      · rw [Delivery.taken, hsave, hworker]
        exact congrArg List.length (List.append_nil _)
      · rw [hsave, List.append_right_eq_self] at hunsaved
        rw [hunsaved, hworker]
        rfl
      · rw [hworker, hchannels, hpc]
        exact id

omit [DecidableEq ι] in
/-- Only past the slot of a channel has the worker a message of it in its
hands. -/
theorem PassPc.At.hand {w : PassPc τ ι} {channels : List τ} (h : w.At channels) (t : τ) :
    w.hand t = [] ∨
      ∃ m index, w.hand t = [m] ∧ w.visits = index + 1 ∧ channels[index]? = some t := by
  cases w with
  | collecting | placing | scan => exact .inl rfl
  | popping index u pc =>
      by_cases hu : u = t
      · subst hu
        rw [PassPc.hand, if_pos rfl]
        cases pc with
        | nextIndex e | setIndex e _ =>
            cases e with
            | none => exact .inl rfl
            | some m => exact .inr ⟨m, index, rfl, rfl, h⟩
        | loadIndex | loadSlot | clearIndex | clearSlot => exact .inl rfl
      · rw [PassPc.hand, if_neg hu]
        exact .inl rfl
  | saving index m =>
      by_cases hu : m.thread = t
      · subst hu
        rw [PassPc.hand, if_pos rfl]
        exact .inr ⟨m, index, rfl, rfl, h⟩
      · rw [PassPc.hand, if_neg hu]
        exact .inl rfl

/-- Where a count begins: a message of `other` in the worker's hands is the
one. -/
theorem Turn.start (hv : Visiting c s) : Turn (s.savedOf other).length channel other s := by
  rcases hv.worker_at.hand other with hempty | ⟨m, index, hhand, hvisits, hget⟩
  · have htaken : s.taken other = s.savedOf other := by
      rw [Delivery.taken, hempty, List.append_nil]
    constructor
    · rw [htaken]
      exact Nat.le_succ _
    · intro _ _
      rw [htaken]
  · constructor
    · rw [Delivery.taken, hhand, List.length_append]
      exact le_rfl
    · intro _ hcomes
      rw [hvisits, hv.idxOf_eq hget] at hcomes
      exact absurd hcomes not_comesFirst_succ

theorem Delivery.work_grows : s.channels <+: (s.work c).channels ∧ s.saved <+: (s.work c).saved := by
  unfold Delivery.work
  split
  · split <;> exact ⟨List.prefix_rfl, List.prefix_rfl⟩
  · exact ⟨List.prefix_append _ _, List.prefix_rfl⟩
  · split <;> exact ⟨List.prefix_rfl, List.prefix_rfl⟩
  · next index t pc _ =>
      obtain ⟨hchannels, hsaved⟩ := s.popStep_frame index t pc
      rw [hchannels, hsaved]
      exact ⟨List.prefix_rfl, List.prefix_rfl⟩
  · exact ⟨List.prefix_rfl, List.prefix_append _ _⟩

omit [DecidableEq ι] in
theorem Delivery.savedOf_grows (h : s.saved <+: s'.saved) (t : τ) : s.savedOf t <+: s'.savedOf t :=
  (h.map Prod.snd).filter _

/-- A channel with an unsaved message that the worker does not have holds it. -/
theorem Conserved.stored_ne_nil (h : Conserved c s)
    (hlt : (s.savedOf t).length < (s.accepted t).length) (hhand : s.worker.hand t = []) :
    s.stored t ≠ [] := by
  intro hstored
  have haccounts := congrArg List.length (h.accounts t)
  rw [hhand, hstored, List.append_nil, List.append_nil, List.length_map, List.length_map] at haccounts
  omega

/-- What is to be shown of the states `u` after `s`. It is an invariant of the
steps in which no message of `channel` is saved. -/
structure Served (c : Setup ι) (s : Delivery τ ι) (channel other : τ) (u : Delivery τ ι) :
    Prop where
  reach : (delivery τ c).Reach Free u
  mem : channel ∈ u.channels
  saved : ∀ t, s.savedOf t <+: u.savedOf t
  waiting : (s.savedOf channel).length < (u.accepted channel).length
  turn : u.savedOf channel = s.savedOf channel → Turn (s.savedOf other).length channel other u

/-- The steps of the threads do not change whose turn it is, so only those of
the worker are looked at. -/
theorem Served.next {u v : Delivery τ ι} {a : Action τ ι} (h : Served c s channel other u)
    (hne : other ≠ channel) (hnext : (delivery τ c).next u a = some v) :
    Served c s channel other v := by
  have hreach : (delivery τ c).Reach Free v := h.reach.step trivial hnext
  by_cases ha : a = .work
  · subst ha
    cases hnext
    obtain ⟨hchannels, hsaved⟩ := Delivery.work_grows (c := c) (s := u)
    have hgrows := Delivery.savedOf_grows hsaved
    refine ⟨hreach, hchannels.subset h.mem, fun t => (h.saved t).trans (hgrows t), ?_, ?_⟩
    · rw [work_frame.2.1]
      exact h.waiting
    · intro hunsaved
      -- nothing was saved before this access either
      have hbefore : u.savedOf channel = s.savedOf channel := by
        refine ((h.saved channel).eq_of_length_le ?_).symm
        rw [← hunsaved]
        exact (hgrows channel).length_le
      obtain ⟨as, hrun⟩ := h.reach
      have hv : Visiting c u := .of_run hrun
      refine (h.turn hbefore).work hv h.mem hne ?_ (hunsaved.trans hbefore.symm)
      apply hv.ordered.conserved.stored_ne_nil
      rw [hbefore]
      exact h.waiting
  · obtain ⟨hworker, hchannels, hsaved, haccepted⟩ := thread_frame ha hnext
    have hsame (t : τ) : v.savedOf t = u.savedOf t := by
      rw [Delivery.savedOf, hsaved]
      rfl
    refine ⟨hreach, ?_, fun t => ?_, h.waiting.trans_le (haccepted channel), fun hunsaved => ?_⟩
    · rw [hchannels]
      exact h.mem
    · rw [hsame]
      exact h.saved t
    · rw [hsame] at hunsaved
      refine (h.turn hunsaved).keep ?_ ?_ ?_
      · rw [Delivery.taken_eq hsaved (by rw [hworker])]
      · rw [hworker]
      · rw [hworker, hchannels]
        exact id

/-- From any state with a message in `channel` on, until the worker saves a
message of `channel`, it has at most one message of each other channel. The
bound holds wherever in a pass the count begins, and however many messages and
channels are added meanwhile. -/
theorem serves_in_turn {as ms : List (Action τ ι)} (hrun : (delivery τ c).Run Free as s)
    (hmem : channel ∈ s.channels) (hstored : s.stored channel ≠ [])
    (hsteps : (delivery τ c).Steps Free s ms s')
    (hunsaved : s'.savedOf channel = s.savedOf channel) :
    ∀ other, other ≠ channel →
      ∃ new, s'.taken other = s.savedOf other ++ new ∧ new.length ≤ 1 := by
  intro other hne
  have hv : Visiting c s := .of_run hrun
  have hwaiting : (s.savedOf channel).length < (s.accepted channel).length := by
    have haccounts := congrArg List.length (hv.ordered.conserved.accounts channel)
    have hpos : 0 < (s.stored channel).length := List.length_pos_iff.mpr hstored
    simp only [List.length_map, List.length_append] at haccounts
    omega
  have hstart : Served c s channel other s :=
    ⟨⟨as, hrun⟩, hmem, fun t => List.prefix_rfl, hwaiting, fun _ => .start hv⟩
  have hserved : Served c s channel other s' :=
    hsteps.preserves hstart fun u a v hu _ hnext => hu.next hne hnext
  obtain ⟨new, hnew⟩ : s.savedOf other <+: s'.taken other :=
    (hserved.saved other).trans (List.prefix_append _ _)
  refine ⟨new, hnew.symm, ?_⟩
  have hmost := (hserved.turn hunsaved).most
  rw [← hnew, List.length_append] at hmost
  omega

end Turns

/-- Both threads have registered and their channels hold two messages and one. -/
def collectedRun : List (Action (Fin 2) Bool) :=
  .capture 0 (some true) .notice :: List.replicate 12 (Action.step 0) ++
    [Action.capture 0 (some false) .error] ++ List.replicate 6 (Action.step 0) ++
    [Action.capture 1 (some true) .error] ++ List.replicate 12 (Action.step 1) ++
    List.replicate 16 Action.work

def collectedState : Delivery (Fin 2) Bool :=
  ((delivery (Fin 2) twoLoggers).exec Free (Delivery.initial twoLoggers) collectedRun).get
    (by decide +kernel)

/-- A pass up to the message of thread 1, which is in the worker's hands. -/
def servedState : Delivery (Fin 2) Bool :=
  ((delivery (Fin 2) twoLoggers).exec Free collectedState (List.replicate 15 .work)).get
    (by decide +kernel)

theorem serves_in_turn_collectedRun :
    (collectedState.stored 0).length = 2 ∧ collectedState.stored 1 ≠ [] ∧
      (servedState.worker.hand 1).length = 1 ∧
      ∃ new, servedState.taken 0 = collectedState.savedOf 0 ++ new ∧ new.length ≤ 1 := by
  have hrun : (delivery (Fin 2) twoLoggers).Run Free collectedRun collectedState :=
    run_of_exec rfl _
  have hsteps : (delivery (Fin 2) twoLoggers).Steps Free collectedState
      (List.replicate 15 .work) servedState := steps_of_exec (Option.some_get _).symm
  have hstored : collectedState.stored 1 ≠ [] := by decide +kernel
  have hmem : 1 ∈ collectedState.channels := by decide +kernel
  have hunsaved : servedState.savedOf 1 = collectedState.savedOf 1 := by decide +kernel
  exact ⟨by decide +kernel, hstored, by decide +kernel,
    serves_in_turn hrun hmem hstored hsteps hunsaved 0 (by decide)⟩

end Libni.Logging
