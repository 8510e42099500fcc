import Mathlib.Data.List.Induction
import Mathlib.Data.List.Nodup
import Mathlib.Logic.Function.Basic

/-!
# Sequences linked in both directions

Nodes of a memory carry a link to the node before and to the node after them.

* `Chain` — the nodes met by following one kind of link; it is unique, and `reaches_iff` says what it reaches.
* `Segment` — a run of nodes linked both ways, with the node before its first and after its last;
  `segment_append` takes one apart.
* `Linked` — head, tail and links represent a sequence; `Linked.forward` and `Linked.backward` are its chains.
* `Linked.append`, `Linked.unlink` — what linking a node in at the end and linking one out does.
-/

set_option autoImplicit false

universe u

section Chain

variable {α : Type u} {step step' : α → Option α}

/-- The nodes met from `o` on, by following `step` to its end. -/
inductive Chain (step : α → Option α) : Option α → List α → Prop where
  | nil : Chain step none []
  | cons {p : α} {l : List α} (h : Chain step (step p) l) : Chain step (some p) (p :: l)

/-- **A chain is determined by its start.** -/
theorem Chain.unique {o : Option α} {l l' : List α} (h : Chain step o l) (h' : Chain step o l') : l = l' := by
  induction h generalizing l' with
  | nil =>
    cases h'
    rfl
  | cons h ih =>
    cases h' with
    | cons h' => rw [ih h']

theorem Chain.head_eq {o : Option α} {l : List α} (h : Chain step o l) : l.head? = o := by
  cases h <;> rfl

/-- The links of other nodes do not matter. -/
theorem Chain.frame {o : Option α} {l : List α} (h : Chain step o l) (hstep : ∀ p ∈ l, step' p = step p) :
    Chain step' o l := by
  induction h with
  | nil => exact .nil
  | cons h ih =>
    refine .cons ?_
    rw [hstep _ List.mem_cons_self]
    exact ih fun q hq => hstep q (List.mem_cons_of_mem _ hq)

/-- `q` is met from `o` on. -/
inductive Reaches (step : α → Option α) : Option α → α → Prop where
  | here {p : α} : Reaches step (some p) p
  | there {p q : α} (h : Reaches step (step p) q) : Reaches step (some p) q

theorem Chain.reaches_iff {o : Option α} {l : List α} (h : Chain step o l) (q : α) :
    Reaches step o q ↔ q ∈ l := by
  induction h with
  | nil =>
    constructor
    · intro hr
      cases hr
    · intro hmem
      cases hmem
  | cons h ih =>
    rw [List.mem_cons, ← ih]
    constructor
    · intro hr
      cases hr with
      | here => exact Or.inl rfl
      | there hr => exact Or.inr hr
    · rintro (rfl | hr)
      · exact .here
      · exact .there hr

end Chain

section Segment

variable {α : Type u} {prev next prev' next' : α → Option α}

/-- The nodes of the list are linked both ways, after `b` and before `a`. -/
def Segment (prev next : α → Option α) : Option α → List α → Option α → Prop
  | _, [], _ => True
  | b, p :: l, a => prev p = b ∧ next p = l.head?.or a ∧ Segment prev next (some p) l a

theorem segment_append (b : Option α) (l₁ l₂ : List α) (a : Option α) :
    Segment prev next b (l₁ ++ l₂) a ↔
      Segment prev next b l₁ (l₂.head?.or a) ∧ Segment prev next (l₁.getLast?.or b) l₂ a := by
  induction l₁ generalizing b with
  | nil => simp [Segment]
  | cons p l ih =>
    have hhead : (l ++ l₂).head?.or a = l.head?.or (l₂.head?.or a) := by
      rw [List.head?_append, Option.or_assoc]
    have hlast : (p :: l).getLast?.or b = l.getLast?.or (some p) := by
      cases l with
      | nil => rfl
      | cons q l =>
        rw [List.getLast?_cons_cons, List.getLast?_eq_some_getLast (List.cons_ne_nil q l), Option.some_or,
          Option.some_or]
    rw [List.cons_append, Segment, Segment, ih, hhead, hlast]
    simp only [and_assoc]

/-- Links of other nodes do not matter. -/
theorem Segment.frame {b : Option α} {l : List α} {a : Option α} (h : Segment prev next b l a)
    (hprev : ∀ p ∈ l, prev' p = prev p) (hnext : ∀ p ∈ l, next' p = next p) : Segment prev' next' b l a := by
  induction l generalizing b with
  | nil => trivial
  | cons p l ih =>
    obtain ⟨hp, hn, hrest⟩ := h
    refine ⟨?_, ?_, ih hrest (fun q hq => hprev q (List.mem_cons_of_mem p hq))
      (fun q hq => hnext q (List.mem_cons_of_mem p hq))⟩
    · rw [hprev p List.mem_cons_self, hp]
    · rw [hnext p List.mem_cons_self, hn]

/-- The last node is linked to another node after it. -/
theorem Segment.change_after {b : Option α} {l : List α} {a : Option α} (h : Segment prev next b l a)
    (hnodup : l.Nodup) {a' : Option α} (hprev : ∀ p ∈ l, prev' p = prev p)
    (hlast : ∀ p, l.getLast? = some p → next' p = a')
    (hnext : ∀ p ∈ l, l.getLast? ≠ some p → next' p = next p) : Segment prev' next' b l a' := by
  induction l generalizing b with
  | nil => trivial
  | cons p l ih =>
    obtain ⟨hp, hn, hrest⟩ := h
    obtain ⟨hnot, hnodup'⟩ := List.nodup_cons.mp hnodup
    cases l with
    | nil =>
      refine ⟨?_, hlast p rfl, trivial⟩
      rw [hprev p List.mem_cons_self, hp]
    | cons q l =>
      have hne : (p :: q :: l).getLast? ≠ some p := by
        rw [List.getLast?_cons_cons]
        exact fun heq => hnot (List.mem_of_getLast? heq)
      refine ⟨?_, ?_, ih hrest hnodup' (fun r hr => hprev r (List.mem_cons_of_mem p hr)) ?_ ?_⟩
      · rw [hprev p List.mem_cons_self, hp]
      · rw [hnext p List.mem_cons_self hne, hn]
        rfl
      · intro r hr
        exact hlast r (by rw [List.getLast?_cons_cons]; exact hr)
      · intro r hr hr'
        exact hnext r (List.mem_cons_of_mem p hr) (by rw [List.getLast?_cons_cons]; exact hr')

/-- The first node is linked to another node before it. -/
theorem Segment.change_before {b : Option α} {l : List α} {a : Option α} (h : Segment prev next b l a)
    (hnodup : l.Nodup) {b' : Option α} (hfirst : ∀ p, l.head? = some p → prev' p = b')
    (hprev : ∀ p ∈ l, l.head? ≠ some p → prev' p = prev p) (hnext : ∀ p ∈ l, next' p = next p) :
    Segment prev' next' b' l a := by
  cases l with
  | nil => trivial
  | cons p l =>
    obtain ⟨hp, hn, hrest⟩ := h
    obtain ⟨hnot, _⟩ := List.nodup_cons.mp hnodup
    refine ⟨hfirst p rfl, ?_, hrest.frame (fun q hq => ?_) (fun q hq => hnext q (List.mem_cons_of_mem p hq))⟩
    · rw [hnext p List.mem_cons_self, hn]
    · refine hprev q (List.mem_cons_of_mem p hq) ?_
      intro heq
      cases heq
      exact hnot hq

theorem Segment.forward {b : Option α} {l : List α} (h : Segment prev next b l none) :
    Chain next l.head? l := by
  induction l generalizing b with
  | nil => exact .nil
  | cons p l ih =>
    obtain ⟨_, hn, hrest⟩ := h
    rw [Option.or_none] at hn
    refine .cons ?_
    rw [hn]
    exact ih hrest

theorem Segment.backward {l : List α} {a : Option α} (h : Segment prev next none l a) :
    Chain prev l.getLast? l.reverse := by
  induction l using List.reverseRecOn generalizing a with
  | nil => exact .nil
  | append_singleton l p ih =>
    obtain ⟨hl, hp, _⟩ := (segment_append none l [p] a).mp h
    rw [Option.or_none] at hp
    rw [List.getLast?_concat, List.reverse_append, List.reverse_singleton, List.singleton_append]
    refine .cons ?_
    rw [hp]
    exact ih hl

/-! ## Lists with a head and a tail -/

/-- **Head, tail and links represent the sequence.** -/
structure Linked (prev next : α → Option α) (head tail : Option α) (l : List α) : Prop where
  nodup : l.Nodup
  head_eq : head = l.head?
  tail_eq : tail = l.getLast?
  segment : Segment prev next none l none

theorem linked_nil (prev next : α → Option α) : Linked prev next none none [] :=
  ⟨List.nodup_nil, rfl, rfl, trivial⟩

variable {head tail : Option α} {l : List α}

theorem Linked.forward (L : Linked prev next head tail l) : Chain next head l := by
  rw [L.head_eq]
  exact L.segment.forward

theorem Linked.backward (L : Linked prev next head tail l) : Chain prev tail l.reverse := by
  rw [L.tail_eq]
  exact L.segment.backward

/-- The links of a node of the sequence. -/
theorem Linked.links (L : Linked prev next head tail l) {a b : List α} {p : α} (h : l = a ++ p :: b) :
    prev p = a.getLast? ∧ next p = b.head? := by
  have hseg := L.segment
  rw [h, segment_append] at hseg
  obtain ⟨_, hp, hn, _⟩ := hseg
  rw [Option.or_none] at hp hn
  exact ⟨hp, hn⟩

/-- **Linking in at the end.** -/
theorem Linked.append (L : Linked prev next head tail l) {p : α} (hp : p ∉ l)
    (hprev : ∀ q ∈ l, prev' q = prev q) (hprevp : prev' p = tail) (hnextp : next' p = none)
    (hlast : ∀ q, tail = some q → next' q = some p) (hnext : ∀ q ∈ l, tail ≠ some q → next' q = next q)
    {head' : Option α} (hhead : head' = head.or (some p)) :
    Linked prev' next' head' (some p) (l ++ [p]) where
  nodup := by
    rw [List.nodup_append]
    refine ⟨L.nodup, List.nodup_singleton p, ?_⟩
    intro a ha b hb heq
    rw [heq, List.mem_singleton.mp hb] at ha
    exact hp ha
  head_eq := by rw [hhead, L.head_eq, List.head?_append, List.head?_singleton]
  tail_eq := by rw [List.getLast?_concat]
  segment := by
    rw [L.tail_eq] at hprevp hlast hnext
    rw [segment_append]
    refine ⟨L.segment.change_after L.nodup hprev hlast hnext, ?_, hnextp, trivial⟩
    rw [Option.or_none]
    exact hprevp

/-- **Linking out.** -/
theorem Linked.unlink {a b : List α} {p : α} (L : Linked prev next head tail (a ++ p :: b))
    (hnextl : ∀ q, a.getLast? = some q → next' q = b.head?)
    (hnext : ∀ q ∈ a ++ b, a.getLast? ≠ some q → next' q = next q)
    (hprevf : ∀ q, b.head? = some q → prev' q = a.getLast?)
    (hprev : ∀ q ∈ a ++ b, b.head? ≠ some q → prev' q = prev q)
    {head' tail' : Option α} (hhead : head' = a.head?.or b.head?) (htail : tail' = b.getLast?.or a.getLast?) :
    Linked prev' next' head' tail' (a ++ b) := by
  have hsub : List.Sublist (a ++ b) (a ++ p :: b) := (List.sublist_cons_self p b).append_left a
  have hnodup := L.nodup.sublist hsub
  obtain ⟨hna, hnb, hdisj⟩ := List.nodup_append.mp hnodup
  have hseg := L.segment
  rw [segment_append] at hseg
  obtain ⟨hsega, _, _, hsegb⟩ := hseg
  refine ⟨hnodup, ?_, ?_, ?_⟩
  · rw [hhead, List.head?_append]
  · rw [htail, List.getLast?_append]
  · rw [segment_append, Option.or_none, Option.or_none]
    constructor
    · refine hsega.change_after hna ?_ hnextl ?_
      · intro q hq
        refine hprev q (List.mem_append_left b hq) ?_
        exact fun heq => hdisj q hq q (List.mem_of_head? heq) rfl
      · exact fun q hq => hnext q (List.mem_append_left b hq)
    · refine hsegb.change_before hnb hprevf ?_ ?_
      · exact fun q hq => hprev q (List.mem_append_right a hq)
      · intro q hq
        refine hnext q (List.mem_append_right a hq) ?_
        exact fun heq => hdisj q (List.mem_of_getLast? heq) q hq rfl

end Segment
