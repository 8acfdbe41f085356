import Mathlib.Data.List.Chain
import Mathlib.Data.List.Nodup
import Mathlib.Data.Fintype.Prod
import FuseCompress.Lib.Transition
import FuseCompress.LinkedList

/-!
# The linked lists are lists

A list is a ring of nodes, each linked both ways with the next. Every function of `list.h` that is used properly turns the rings of
some lists into the rings of the lists it is to make, and follows no NULL pointer; the loops then visit the lists in order.
-/

namespace FuseCompress

universe u v

variable {Node : Type u} {h h' : Links Node} {head x : Node} {xs : List Node}

namespace Links

/-- Two nodes are linked both ways. -/
def Linked (h : Links Node) (a b : Node) : Prop := h.next a = some b ∧ h.prev b = some a

/-- The nodes are on the list of the head, in this order. -/
def Ring (h : Links Node) (head : Node) (xs : List Node) : Prop := (head :: xs ++ [head]).IsChain h.Linked ∧ (head :: xs).Nodup

/-! ## Chains -/

/-- A chain is read off the fields `next` of all nodes but the last, and `prev` of all but the first. -/
theorem isChain_agree {l : List Node} (hc : l.IsChain h.Linked) (hn : ∀ a ∈ l.dropLast, h'.next a = h.next a)
    (hp : ∀ b ∈ l.tail, h'.prev b = h.prev b) : l.IsChain h'.Linked := by
  induction l with
  | nil => exact List.isChain_nil
  | cons a l ih =>
    cases l with
    | nil => exact List.isChain_singleton a
    | cons b l =>
      rw [List.isChain_cons_cons] at hc ⊢
      have hlink : h'.Linked a b :=
        ⟨(hn a List.mem_cons_self).trans hc.1.1, (hp b List.mem_cons_self).trans hc.1.2⟩
      exact ⟨hlink, ih hc.2 (fun a ha => hn a (List.mem_cons_of_mem _ ha)) (fun b hb => hp b (List.mem_cons_of_mem _ hb))⟩

/-- Two chains are joined by a link. -/
theorem isChain_join {l₁ l₂ : List Node} {a b : Node} (h₁ : (l₁ ++ [a]).IsChain h.Linked) (hlink : h.Linked a b)
    (h₂ : (b :: l₂).IsChain h.Linked) : (l₁ ++ a :: b :: l₂).IsChain h.Linked := by
  rw [List.isChain_split, List.isChain_cons_cons]
  exact ⟨h₁, hlink, h₂⟩

/-- A list has a first node, before which the head stands. -/
theorem exists_first (xs : List Node) (head : Node) : ∃ n v, xs ++ [head] = n :: v := by
  cases xs with
  | nil => exact ⟨head, [], rfl⟩
  | cons x xs => exact ⟨x, xs ++ [head], rfl⟩

/-- A list has a last node, after which the head stands. -/
theorem exists_last (head : Node) (xs : List Node) : ∃ u p, head :: xs = u ++ [p] :=
  ⟨(head :: xs).dropLast, (head :: xs).getLast (List.cons_ne_nil _ _), (List.dropLast_concat_getLast _).symm⟩

/-- A ring in another memory. -/
theorem Ring.transport (hr : h.Ring head xs) (hs : ∀ y ∈ head :: xs, h'.next y = h.next y ∧ h'.prev y = h.prev y) :
    h'.Ring head xs := by
  refine ⟨isChain_agree hr.1 (fun a ha => ?_) (fun b hb => ?_), hr.2⟩
  · rw [List.dropLast_concat] at ha
    exact (hs a ha).1
  · rw [List.cons_append, List.tail_cons, List.mem_append, List.mem_singleton] at hb
    refine (hs b ?_).2
    rcases hb with hb | rfl
    · exact List.mem_cons_of_mem _ hb
    · exact List.mem_cons_self

/-- Only the fields of nodes of the list `S` have changed. -/
def SameOff (h h' : Links Node) (S : List Node) : Prop := ∀ y, y ∉ S → h'.next y = h.next y ∧ h'.prev y = h.prev y

/-! ## The functions on one ring -/

section Functions

variable [DecidableEq Node]

theorem ring_initListHead (h : Links Node) (head : Node) :
    (h.initListHead head).Ring head [] ∧ h.SameOff (h.initListHead head) [head] := by
  constructor
  · refine ⟨?_, by simp⟩
    rw [List.singleton_append, List.isChain_pair]
    exact ⟨Function.update_self .., Function.update_self ..⟩
  · intro y hy
    rw [List.mem_singleton] at hy
    exact ⟨Function.update_of_ne hy .., Function.update_of_ne hy ..⟩

/-- The fields after `__list_add`. -/
theorem listAdd'_fields (h : Links Node) {new prev next : Node} (hp : prev ≠ new) (hn : next ≠ new) :
    (h.listAdd' new prev next).Linked prev new ∧ (h.listAdd' new prev next).Linked new next ∧
      (∀ y, y ≠ prev → y ≠ new → (h.listAdd' new prev next).next y = h.next y) ∧
      (∀ y, y ≠ next → y ≠ new → (h.listAdd' new prev next).prev y = h.prev y) := by
  refine ⟨⟨Function.update_self .., Function.update_self ..⟩, ⟨?_, ?_⟩, fun y hy hy' => ?_, fun y hy hy' => ?_⟩
  · exact (Function.update_of_ne hp.symm ..).trans (Function.update_self ..)
  · exact (Function.update_of_ne hn ..).trans (Function.update_self ..)
  · exact (Function.update_of_ne hy ..).trans (Function.update_of_ne hy' ..)
  · exact (Function.update_of_ne hy' ..).trans (Function.update_of_ne hy ..)

omit [DecidableEq Node] in
/-- The nodes that a ring leads to. -/
theorem Ring.rotated (hr : h.Ring head xs) : (xs ++ [head]).Nodup := by
  have hnodup := List.nodup_cons.mp hr.2
  rw [List.nodup_append]
  refine ⟨hnodup.2, by simp, fun a ha b hb => ?_⟩
  rw [List.mem_singleton] at hb
  rintro rfl
  exact hnodup.1 (hb ▸ ha)

omit [DecidableEq Node] in
/-- Where two nodes of a ring stand one after the other, the nodes around them are others. -/
theorem Ring.around {u v : List Node} {a b : Node} (hr : h.Ring head xs) (hsplit : head :: xs ++ [head] = u ++ a :: b :: v) :
    (∀ y ∈ u, y ≠ a) ∧ (∀ y ∈ (b :: v).dropLast, y ≠ a) ∧ (∀ y ∈ (u ++ [a]).tail, y ≠ b) ∧ ∀ y ∈ v, y ≠ b := by
  have hsources : (u ++ a :: (b :: v).dropLast).Nodup := by
    have hdrop := congrArg List.dropLast hsplit
    rw [List.dropLast_concat, List.dropLast_append_of_ne_nil (List.cons_ne_nil _ _),
      List.dropLast_cons_of_ne_nil (List.cons_ne_nil _ _)] at hdrop
    rw [← hdrop]
    exact hr.2
  have htargets : ((u ++ [a]).tail ++ b :: v).Nodup := by
    have hsplit' : head :: xs ++ [head] = u ++ [a] ++ b :: v := by rw [hsplit, List.append_assoc, List.singleton_append]
    have htail := congrArg List.tail hsplit'
    rw [List.cons_append, List.tail_cons, List.tail_append_of_ne_nil (by simp)] at htail
    rw [← htail]
    exact hr.rotated
  rw [List.nodup_append] at hsources htargets
  refine ⟨fun y hy => hsources.2.2 y hy a List.mem_cons_self, fun y hy hya => ?_, fun y hy => htargets.2.2 y hy b List.mem_cons_self,
    fun y hy hyb => ?_⟩
  · exact (List.nodup_cons.mp hsources.2.1).1 (hya ▸ hy)
  · exact (List.nodup_cons.mp htargets.2.1).1 (hyb ▸ hy)

/-- A node is put between two others of a ring. -/
theorem Ring.insert {u v : List Node} {p n : Node} (hr : h.Ring head xs) (hsplit : head :: xs ++ [head] = u ++ p :: n :: v)
    (hx : x ∉ head :: xs) :
    (u ++ p :: x :: n :: v).IsChain (h.listAdd' x p n).Linked ∧ h.SameOff (h.listAdd' x p n) (x :: head :: xs) := by
  have hmem : ∀ y, y ∈ u ++ p :: n :: v ↔ y ∈ head :: xs := by
    intro y
    rw [← hsplit, List.mem_append, List.mem_singleton]
    exact or_iff_left_of_imp (fun hy => hy ▸ List.mem_cons_self)
  have hne : ∀ y ∈ u ++ p :: n :: v, y ≠ x := fun y hy hyx => hx (hyx ▸ (hmem y).mp hy)
  obtain ⟨hpx, hxn, hnext, hprev⟩ := listAdd'_fields h (hne p (by simp)) (hne n (by simp))
  obtain ⟨hup, hvp, hun, hvn⟩ := hr.around hsplit
  have hc := hr.1
  rw [hsplit, List.isChain_split, List.isChain_cons_cons] at hc
  constructor
  · refine isChain_join (isChain_agree hc.1 (fun a ha => ?_) (fun b hb => ?_)) hpx
      (List.isChain_cons_cons.mpr ⟨hxn, isChain_agree hc.2.2 (fun a ha => ?_) (fun b hb => ?_)⟩)
    · rw [List.dropLast_concat] at ha
      exact hnext a (hup a ha) (hne a (List.mem_append_left _ ha))
    · refine hprev b (hun b hb) (hne b ?_)
      have hb' := List.mem_of_mem_tail hb
      simp only [List.mem_append, List.mem_cons, List.not_mem_nil, or_false] at hb' ⊢
      tauto
    · refine hnext a (hvp a ha) (hne a ?_)
      have ha' := List.dropLast_subset _ ha
      exact List.mem_append_right _ (List.mem_cons_of_mem _ ha')
    · refine hprev b (hvn b hb) (hne b ?_)
      exact List.mem_append_right _ (List.mem_cons_of_mem _ (List.mem_cons_of_mem _ hb))
  · intro y hy
    rw [List.mem_cons, not_or] at hy
    have hyp : y ≠ p := fun hyp => hy.2 ((hmem y).mp (by rw [hyp]; simp))
    have hyn : y ≠ n := fun hyn => hy.2 ((hmem y).mp (by rw [hyn]; simp))
    exact ⟨hnext y hyp hy.1, hprev y hyn hy.1⟩

/-- The fields after `__list_del`. -/
theorem listDel'_fields (h : Links Node) (prev next : Node) :
    (h.listDel' prev next).Linked prev next ∧ (∀ y, y ≠ prev → (h.listDel' prev next).next y = h.next y) ∧
      (∀ y, y ≠ next → (h.listDel' prev next).prev y = h.prev y) :=
  ⟨⟨Function.update_self .., Function.update_self ..⟩, fun _ hy => Function.update_of_ne hy .., fun _ hy => Function.update_of_ne hy ..⟩

/-- A node is taken out from between two others of a ring. What happens to its own fields does not matter. -/
theorem Ring.remove {u v : List Node} {p n : Node} (hr : h.Ring head xs) (hsplit : head :: xs ++ [head] = u ++ p :: x :: n :: v) :
    h.listUnlink x = some (h.listDel' p n) ∧ h.SameOff (h.listDel' p n) (head :: xs) ∧
      ∀ g : Links Node, (h.listDel' p n).SameOff g [x] → (u ++ p :: n :: v).IsChain g.Linked := by
  have hmem : ∀ y, y ∈ u ++ p :: x :: n :: v → y ∈ head :: xs := by
    intro y
    rw [← hsplit, List.mem_append, List.mem_singleton]
    exact fun hy => hy.elim id (fun hy => hy ▸ List.mem_cons_self)
  have hsplit' : head :: xs ++ [head] = (u ++ [p]) ++ x :: n :: v := by rw [hsplit, List.append_assoc, List.singleton_append]
  obtain ⟨hup, hxvp, hux, hvx⟩ := hr.around hsplit
  obtain ⟨hupx, hvx', hun, hvn⟩ := hr.around hsplit'
  obtain ⟨hpn, hnext, hprev⟩ := listDel'_fields h p n
  have hc := hr.1
  rw [hsplit, List.isChain_split, List.isChain_cons_cons, List.isChain_cons_cons] at hc
  obtain ⟨hcu, hpx, hxn, hcv⟩ := hc
  refine ⟨?_, fun y hy => ?_, fun g hg => ?_⟩
  · unfold Links.listUnlink
    rw [hpx.2, hxn.1]
    rfl
  · have hyp : y ≠ p := fun hyp => hy (hmem y (by rw [hyp]; simp))
    have hyn : y ≠ n := fun hyn => hy (hmem y (by rw [hyn]; simp))
    exact ⟨hnext y hyp, hprev y hyn⟩
  · have hpx' : p ≠ x := hupx p (by simp)
    have hnx : n ≠ x := hvx n List.mem_cons_self
    have hg' : ∀ y, y ≠ x → g.next y = (h.listDel' p n).next y ∧ g.prev y = (h.listDel' p n).prev y :=
      fun y hy => hg y (by rw [List.mem_singleton]; exact hy)
    refine isChain_join (isChain_agree hcu (fun a ha => ?_) (fun b hb => ?_))
      ⟨(hg' p hpx').1.trans hpn.1, (hg' n hnx).2.trans hpn.2⟩ (isChain_agree hcv (fun a ha => ?_) (fun b hb => ?_))
    · rw [List.dropLast_concat] at ha
      exact (hg' a (hupx a (List.mem_append_left _ ha))).1.trans (hnext a (hup a ha))
    · have hbx : b ≠ x := hux b hb
      have hbn : b ≠ n := by
        refine hun b ?_
        rw [List.tail_append_of_ne_nil (by simp)]
        exact List.mem_append_left _ hb
      exact (hg' b hbx).2.trans (hprev b hbn)
    · have hax : a ≠ x := hvx' a ha
      have hap : a ≠ p := hxvp a (List.mem_cons_of_mem _ ha)
      exact (hg' a hax).1.trans (hnext a hap)
    · exact (hg' b (hvx b (List.mem_cons_of_mem _ hb))).2.trans (hprev b (hvn b hb))

/-- `list_add` puts the node first. -/
theorem Ring.listAdd (hr : h.Ring head xs) (hx : x ∉ head :: xs) :
    ∃ h', h.listAdd x head = some h' ∧ h'.Ring head (x :: xs) ∧ h.SameOff h' (x :: head :: xs) := by
  obtain ⟨n, v, hfirst⟩ := exists_first xs head
  have hsplit : head :: xs ++ [head] = [] ++ head :: n :: v := by rw [List.cons_append, hfirst, List.nil_append]
  obtain ⟨hchain, hsame⟩ := hr.insert hsplit hx
  refine ⟨h.listAdd' x head n, ?_, ⟨?_, ?_⟩, hsame⟩
  · have hc := hr.1
    rw [hsplit, List.nil_append, List.isChain_cons_cons] at hc
    unfold Links.listAdd
    rw [hc.1.1]
    rfl
  · rw [List.cons_append, List.cons_append, hfirst]
    exact hchain
  · simp only [List.nodup_cons, List.mem_cons, not_or] at hx ⊢
    exact ⟨⟨Ne.symm hx.1, (List.nodup_cons.mp hr.2).1⟩, hx.2, (List.nodup_cons.mp hr.2).2⟩

/-- `list_add_tail` puts the node last. -/
theorem Ring.listAddTail (hr : h.Ring head xs) (hx : x ∉ head :: xs) :
    ∃ h', h.listAddTail x head = some h' ∧ h'.Ring head (xs ++ [x]) ∧ h.SameOff h' (x :: head :: xs) := by
  obtain ⟨u, p, hlast⟩ := exists_last head xs
  have hsplit : head :: xs ++ [head] = u ++ p :: head :: [] := by rw [hlast, List.append_assoc, List.singleton_append]
  obtain ⟨hchain, hsame⟩ := hr.insert hsplit hx
  refine ⟨h.listAdd' x p head, ?_, ⟨?_, ?_⟩, hsame⟩
  · have hc := hr.1
    rw [hsplit, List.isChain_split, List.isChain_cons_cons] at hc
    unfold Links.listAddTail
    rw [hc.2.1.2]
    rfl
  · rw [← List.cons_append, hlast, List.append_assoc, List.append_assoc]
    exact hchain
  · rw [← List.cons_append, List.nodup_append]
    refine ⟨hr.2, by simp, fun a ha b hb => ?_⟩
    rw [List.mem_singleton] at hb
    rintro rfl
    exact hx (hb ▸ ha)

/-- Whatever becomes of its fields, a node of the list is taken off it. -/
theorem Ring.listUnlink (hr : h.Ring head xs) (hx : x ∈ xs) : ∃ h', h.listUnlink x = some h' ∧ h.SameOff h' (head :: xs) ∧
    ∀ g : Links Node, h'.SameOff g [x] → g.Ring head (xs.erase x) := by
  obtain ⟨l₁, l₂, rfl⟩ := List.append_of_mem hx
  obtain ⟨u, p, hlast⟩ := exists_last head l₁
  obtain ⟨n, v, hfirst⟩ := exists_first l₂ head
  have hsplit : head :: (l₁ ++ x :: l₂) ++ [head] = u ++ p :: x :: n :: v := by
    rw [← List.cons_append, hlast, List.append_assoc, List.append_assoc, List.singleton_append, List.cons_append, hfirst]
  have hnodup := List.nodup_cons.mp hr.2
  have herase : (l₁ ++ x :: l₂).erase x = l₁ ++ l₂ := by
    have hnot : x ∉ l₁ := fun hm => (List.nodup_append.mp hnodup.2).2.2 x hm x List.mem_cons_self rfl
    rw [List.erase_append_right _ hnot, List.erase_cons_head]
  obtain ⟨hunlink, hsame, hring⟩ := hr.remove hsplit
  refine ⟨h.listDel' p n, hunlink, hsame, fun g hg => ⟨?_, ?_⟩⟩
  · rw [herase, ← List.cons_append, hlast, List.append_assoc, List.append_assoc, hfirst, List.singleton_append]
    exact hring g hg
  · exact (List.nodup_cons.mpr ⟨fun hm => hnodup.1 (List.mem_of_mem_erase hm), hnodup.2.erase x⟩)

/-- The fields after `__list_splice`. -/
theorem listSplice'_fields {list first last pos : Node} (hfirst : h.next list = some first) (hlast : h.prev list = some last)
    (hpos : h.next head = some pos) (hlh : last ≠ head) (hfp : first ≠ pos) :
    ∃ h', h.listSplice' list head = some h' ∧ h'.Linked head first ∧ h'.Linked last pos ∧
      (∀ y, y ≠ head → y ≠ last → h'.next y = h.next y) ∧ (∀ y, y ≠ first → y ≠ pos → h'.prev y = h.prev y) := by
  unfold Links.listSplice'
  rw [hfirst, hlast, hpos]
  refine ⟨_, rfl, ⟨?_, ?_⟩, ⟨Function.update_self .., Function.update_self ..⟩, fun y hy hy' => ?_, fun y hy hy' => ?_⟩
  · exact (Function.update_of_ne hlh.symm ..).trans (Function.update_self ..)
  · exact (Function.update_of_ne hfp ..).trans (Function.update_self ..)
  · exact (Function.update_of_ne hy' ..).trans (Function.update_of_ne hy ..)
  · exact (Function.update_of_ne hy' ..).trans (Function.update_of_ne hy ..)

/-- The nodes of one list are put before those of another. -/
theorem Ring.listSplice' {list : Node} {ys : List Node} (hl : h.Ring list xs) (hr : h.Ring head ys) (hne : xs ≠ [])
    (hdisjoint : List.Disjoint (list :: xs) (head :: ys)) :
    ∃ h', h.listSplice' list head = some h' ∧ h'.Ring head (xs ++ ys) ∧ h.SameOff h' (xs ++ head :: ys) := by
  obtain ⟨first, w, rfl⟩ := List.exists_cons_of_ne_nil hne
  obtain ⟨w', last, hlast⟩ := exists_last first w
  obtain ⟨pos, v, hpos⟩ := exists_first ys head
  have hposv : ∀ y, y ∈ pos :: v ↔ y ∈ head :: ys := by
    intro y
    rw [← hpos, List.mem_append, List.mem_singleton, List.mem_cons, or_comm]
  have hcl := hl.1
  rw [List.cons_append, hlast, List.append_assoc, List.singleton_append, ← List.cons_append, List.isChain_split,
    List.isChain_cons_cons] at hcl
  have hcf := hl.1
  rw [List.cons_append, List.cons_append, List.isChain_cons_cons] at hcf
  have hcr := hr.1
  rw [List.cons_append, hpos, List.isChain_cons_cons] at hcr
  have hxs : ∀ y ∈ first :: w, y ∉ head :: ys := fun y hy hy' => hdisjoint (List.mem_cons_of_mem _ hy) hy'
  have hmemlast : last ∈ first :: w := by rw [hlast]; simp
  have hlh : last ≠ head := fun heq => hxs last hmemlast (heq ▸ List.mem_cons_self)
  have hfp : first ≠ pos := fun heq => hxs first List.mem_cons_self ((hposv first).mp (heq ▸ List.mem_cons_self))
  obtain ⟨h', happly, hhf, hlp, hnext, hprev⟩ := listSplice'_fields hcf.1.1 hcl.2.1.2 hcr.1.1 hlh hfp
  have hnodupxs : (first :: w).Nodup := (List.nodup_cons.mp hl.2).2
  have hnodupv : (pos :: v).Nodup := hpos ▸ hr.rotated
  -- the nodes of the first list, from its first to its last
  have hcxs : (w' ++ [last]).IsChain h'.Linked := by
    rw [← hlast]
    have hc : (first :: w).IsChain h.Linked := hcf.2.left_of_append
    refine isChain_agree hc (fun a ha => ?_) (fun b hb => ?_)
    · have hax : a ∈ first :: w := List.dropLast_subset _ ha
      refine hnext a (fun heq => hxs a hax (heq ▸ List.mem_cons_self)) (fun heq => ?_)
      rw [hlast] at ha hnodupxs
      rw [List.dropLast_concat] at ha
      exact (List.nodup_append.mp hnodupxs).2.2 a ha last List.mem_cons_self heq
    · have hbw : b ∈ w := hb
      refine hprev b (fun heq => (List.nodup_cons.mp hnodupxs).1 (heq ▸ hbw)) (fun heq => ?_)
      exact hxs b (List.mem_cons_of_mem _ hbw) ((hposv b).mp (heq ▸ List.mem_cons_self))
  -- the nodes of the other list, from its first to its head
  have hcv : (pos :: v).IsChain h'.Linked := by
    refine isChain_agree hcr.2 (fun a ha => ?_) (fun b hb => ?_)
    · have haxs : a ∉ first :: w := fun hax => hxs a hax ((hposv a).mp (List.dropLast_subset _ ha))
      refine hnext a (fun heq => ?_) (fun heq => haxs (heq ▸ hmemlast))
      rw [← hpos, List.dropLast_concat] at ha
      exact (List.nodup_cons.mp hr.2).1 (heq ▸ ha)
    · have hbv : b ∈ v := hb
      refine hprev b (fun heq => ?_) (fun heq => (List.nodup_cons.mp hnodupv).1 (heq ▸ hbv))
      exact hxs first List.mem_cons_self ((hposv first).mp (heq ▸ List.mem_cons_of_mem _ hbv))
  refine ⟨h', happly, ⟨?_, ?_⟩, fun y hy => ?_⟩
  · rw [List.cons_append, List.append_assoc, hpos, hlast, List.append_assoc, List.singleton_append]
    have hc : (w' ++ last :: pos :: v).IsChain h'.Linked := isChain_join hcxs hlp hcv
    obtain ⟨u, hu⟩ : ∃ u, w' ++ last :: pos :: v = first :: u := by
      refine ⟨w ++ pos :: v, ?_⟩
      rw [← List.cons_append, hlast, List.append_assoc, List.singleton_append]
    rw [hu] at hc ⊢
    exact List.isChain_cons_cons.mpr ⟨hhf, hc⟩
  · have hnodupr := List.nodup_cons.mp hr.2
    rw [List.nodup_cons, List.mem_append, not_or, List.nodup_append]
    refine ⟨⟨fun hm => hxs head hm List.mem_cons_self, hnodupr.1⟩, hnodupxs, hnodupr.2, fun a ha b hb heq => ?_⟩
    exact hxs a ha (heq ▸ List.mem_cons_of_mem _ hb)
  · rw [List.mem_append, not_or] at hy
    have hy' : y ∉ pos :: v := fun hm => hy.2 ((hposv y).mp hm)
    exact ⟨hnext y (fun heq => hy.2 (heq ▸ List.mem_cons_self)) (fun heq => hy.1 (heq ▸ hmemlast)),
      hprev y (fun heq => hy.1 (heq ▸ List.mem_cons_self)) (fun heq => hy' (heq ▸ List.mem_cons_self))⟩

/-! ## All lists at once -/

omit [DecidableEq Node] in
/-- The memory holds these lists: each is a ring, and no two of them have a node in common. -/
structure Holds (h : Links Node) (A : Lists Node) : Prop where
  ring : ∀ head xs, A head = some xs → h.Ring head xs
  apart : ∀ head head' xs xs', A head = some xs → A head' = some xs' → head ≠ head' → List.Disjoint (head :: xs) (head' :: xs')

variable {A B : Lists Node}

omit [DecidableEq Node] in
/-- Any memory holds no lists. -/
theorem holds_no_lists (h : Links Node) : h.Holds (fun _ => none) := by
  constructor
  · intro head xs hxs
    cases hxs
  · intro head head' xs xs' hxs
    cases hxs

omit [DecidableEq Node] in
/-- A memory in which only the nodes of `S` have changed holds the lists that have no node in `S`, and those that are rings anew. -/
theorem Holds.frame (hA : h.Holds A) {S : List Node} (hs : h.SameOff h' S)
    (hB : ∀ head xs, B head = some xs →
      h'.Ring head xs ∧ (∀ y ∈ head :: xs, y ∈ S) ∨ A head = some xs ∧ ∀ y ∈ head :: xs, y ∉ S)
    (hone : ∀ head head' xs xs', B head = some xs → B head' = some xs' → head ∈ S → head' ∈ S → head = head') : h'.Holds B := by
  constructor
  · intro head xs hxs
    rcases hB head xs hxs with ⟨hr, _⟩ | ⟨hold, hoff⟩
    · exact hr
    · exact (hA.ring head xs hold).transport (fun y hy => hs y (hoff y hy))
  · intro head head' xs xs' hxs hxs' hne y hy hy'
    rcases hB head xs hxs with ⟨_, hin⟩ | ⟨hold, hoff⟩ <;> rcases hB head' xs' hxs' with ⟨_, hin'⟩ | ⟨hold', hoff'⟩
    · exact hne (hone head head' xs xs' hxs hxs' (hin head List.mem_cons_self) (hin' head' List.mem_cons_self))
    · exact hoff' y hy' (hin y hy)
    · exact hoff y hy (hin' y hy')
    · exact hA.apart head head' xs xs' hold hold' hne hy hy'

/-- The list of one head becomes another, of nodes that were its own or free. -/
theorem Holds.update (hA : h.Holds A) {S : List Node} (hs : h.SameOff h' S) (hr : h'.Ring head xs) (hhead : head ∈ S)
    (hxs : ∀ y ∈ xs, y ∈ S) (hoff : ∀ head' xs', A head' = some xs' → head' ≠ head → ∀ y ∈ head' :: xs', y ∉ S) :
    h'.Holds (Function.update A head (some xs)) := by
  refine hA.frame hs (fun head' xs' hB => ?_) (fun head₁ head₂ xs₁ xs₂ h₁ h₂ hm₁ hm₂ => ?_)
  · rcases eq_or_ne head' head with rfl | hne
    · rw [Function.update_self] at hB
      cases hB
      exact Or.inl ⟨hr, fun y hy => (List.mem_cons.mp hy).elim (fun heq => heq ▸ hhead) (hxs y)⟩
    · rw [Function.update_of_ne hne] at hB
      exact Or.inr ⟨hB, hoff head' xs' hB hne⟩
  · have hself : ∀ head' xs', Function.update A head (some xs) head' = some xs' → head' ∈ S → head' = head := by
      intro head' xs' hB hm
      by_contra hne
      rw [Function.update_of_ne hne] at hB
      exact hoff head' xs' hB hne head' List.mem_cons_self hm
    rw [hself head₁ xs₁ h₁ hm₁, hself head₂ xs₂ h₂ hm₂]

omit [DecidableEq Node] in
/-- The nodes of a list that the memory holds. -/
theorem nodes_eq (hhead : A head = some xs) : A.nodes head = xs := by
  unfold Lists.nodes
  rw [hhead]
  rfl

omit [DecidableEq Node] in
theorem isHead (hhead : A head = some xs) : A.Head head := by
  unfold Lists.Head
  rw [hhead]
  rfl

omit [DecidableEq Node] in
/-- The list of a node. -/
theorem exists_of_mem_nodes (hx : x ∈ A.nodes head) : ∃ xs, A head = some xs ∧ x ∈ xs := by
  unfold Lists.nodes at hx
  cases hhead : A head with
  | none =>
    rw [hhead] at hx
    cases hx
  | some xs =>
    rw [hhead] at hx
    exact ⟨xs, rfl, hx⟩

omit [DecidableEq Node] in
/-- A free node is on none of the rings. -/
theorem free_not_mem (hx : A.Free x) (hhead : A head = some xs) : x ∉ head :: xs := by
  intro hm
  rcases List.mem_cons.mp hm with rfl | hm
  · rw [hx.1] at hhead
    cases hhead
  · exact hx.2 head (by rwa [nodes_eq hhead])

theorem Holds.initListHead (hA : h.Holds A) (hx : A.Free x) : (h.initListHead x).Holds (Function.update A x (some [])) := by
  obtain ⟨hr, hs⟩ := ring_initListHead h x
  refine hA.update hs hr List.mem_cons_self (fun y hy => absurd hy List.not_mem_nil) (fun head' xs' hold _ y hy hm => ?_)
  rw [List.mem_singleton] at hm
  exact free_not_mem hx hold (hm ▸ hy)

omit [DecidableEq Node] in
/-- The nodes of one list and a free node are on no other list. -/
theorem Holds.off (hA : h.Holds A) (hx : A.Free x) (hhead : A head = some xs) :
    ∀ head' xs', A head' = some xs' → head' ≠ head → ∀ y ∈ head' :: xs', y ∉ x :: head :: xs := by
  intro head' xs' hold hne y hy hm
  rcases List.mem_cons.mp hm with rfl | hm
  · exact free_not_mem hx hold hy
  · exact hA.apart head' head xs' xs hold hhead hne hy hm

theorem Holds.listAdd (hA : h.Holds A) (hx : A.Free x) (hhead : A.Head head) :
    ∃ h', h.listAdd x head = some h' ∧ h'.Holds (A.modify head (x :: ·)) := by
  obtain ⟨xs, hxs⟩ := Option.isSome_iff_exists.mp hhead
  obtain ⟨h', happly, hr, hs⟩ := (hA.ring head xs hxs).listAdd (free_not_mem hx hxs)
  refine ⟨h', happly, ?_⟩
  unfold Lists.modify
  rw [hxs]
  exact hA.update hs hr (by simp) (fun y hy => by simp only [List.mem_cons] at hy ⊢; tauto) (hA.off hx hxs)

theorem Holds.listAddTail (hA : h.Holds A) (hx : A.Free x) (hhead : A.Head head) :
    ∃ h', h.listAddTail x head = some h' ∧ h'.Holds (A.modify head (· ++ [x])) := by
  obtain ⟨xs, hxs⟩ := Option.isSome_iff_exists.mp hhead
  obtain ⟨h', happly, hr, hs⟩ := (hA.ring head xs hxs).listAddTail (free_not_mem hx hxs)
  refine ⟨h', happly, ?_⟩
  unfold Lists.modify
  rw [hxs]
  refine hA.update hs hr (by simp) (fun y hy => ?_) (hA.off hx hxs)
  rw [List.mem_append, List.mem_singleton] at hy
  simp only [List.mem_cons]
  tauto

/-- A node is on one list, so that taking it off its list changes no other. -/
theorem Holds.erase_eq (hA : h.Holds A) (hhead : A head = some xs) (hx : x ∈ xs) :
    A.erase x = Function.update A head (some (xs.erase x)) := by
  funext head'
  unfold Lists.erase
  rcases eq_or_ne head' head with rfl | hne
  · rw [Function.update_self, hhead]
    rfl
  · rw [Function.update_of_ne hne]
    cases hold : A head' with
    | none => rfl
    | some xs' =>
      have hnot : x ∉ xs' := fun hm =>
        hA.apart head' head xs' xs hold hhead hne (List.mem_cons_of_mem _ hm) (List.mem_cons_of_mem _ hx)
      exact congrArg some (List.erase_of_not_mem hnot)

/-- A node taken off its list is free, and whatever becomes of its fields, the memory holds the other lists and what is left of
its own. -/
theorem Holds.listUnlink (hA : h.Holds A) (hx : A.On x) : ∃ h', h.listUnlink x = some h' ∧ (A.erase x).Free x ∧
    ∀ g : Links Node, h'.SameOff g [x] → g.Holds (A.erase x) := by
  obtain ⟨head, hx⟩ := hx
  obtain ⟨xs, hhead, hmem⟩ := exists_of_mem_nodes hx
  have hring := hA.ring head xs hhead
  obtain ⟨h', happly, hs, hr⟩ := hring.listUnlink hmem
  have hnodup := List.nodup_cons.mp hring.2
  have hxhead : x ≠ head := fun heq => hnodup.1 (heq ▸ hmem)
  rw [hA.erase_eq hhead hmem]
  refine ⟨h', happly, ⟨?_, fun head' hm => ?_⟩, fun g hg => ?_⟩
  · rw [Function.update_of_ne hxhead]
    cases hold : A x with
    | none => rfl
    | some ys => exact (hA.apart x head ys xs hold hhead hxhead List.mem_cons_self (List.mem_cons_of_mem _ hmem)).elim
  · obtain ⟨xs', hB, hm⟩ := exists_of_mem_nodes hm
    rcases eq_or_ne head' head with rfl | hne
    · rw [Function.update_self] at hB
      cases hB
      exact (hnodup.2.mem_erase_iff.mp hm).1 rfl
    · rw [Function.update_of_ne hne] at hB
      exact hA.apart head' head xs' xs hB hhead hne (List.mem_cons_of_mem _ hm) (List.mem_cons_of_mem _ hmem)
  · have hs' : h.SameOff g (head :: xs) := fun y hy => by
      have hyx : y ∉ [x] := fun hm => hy (List.mem_singleton.mp hm ▸ List.mem_cons_of_mem _ hmem)
      exact ⟨(hg y hyx).1.trans (hs y hy).1, (hg y hyx).2.trans (hs y hy).2⟩
    refine hA.update hs' (hr g hg) List.mem_cons_self (fun y hy => List.mem_cons_of_mem _ (List.mem_of_mem_erase hy)) ?_
    exact fun head' xs' hold hne y hy hm => hA.apart head' head xs' xs hold hhead hne hy hm

/-- The heads stay heads when a node is taken off its list. -/
theorem head_erase (hhead : A.Head head) : (A.erase x).Head head := by
  obtain ⟨xs, hxs⟩ := Option.isSome_iff_exists.mp hhead
  unfold Lists.Head Lists.erase
  rw [hxs]
  rfl

theorem Holds.listDel (hA : h.Holds A) (hx : A.On x) : ∃ h', h.listDel x = some h' ∧ h'.Holds (A.erase x) := by
  obtain ⟨h', happly, _, hh⟩ := hA.listUnlink hx
  refine ⟨(h'.setNext x none).setPrev x none, ?_, hh _ (fun y hy => ?_)⟩
  · unfold Links.listDel
    rw [happly]
    rfl
  · rw [List.mem_singleton] at hy
    exact ⟨Function.update_of_ne hy .., Function.update_of_ne hy ..⟩

theorem Holds.listDelInit (hA : h.Holds A) (hx : A.On x) :
    ∃ h', h.listDelInit x = some h' ∧ h'.Holds (Function.update (A.erase x) x (some [])) := by
  obtain ⟨h', happly, hfree, hh⟩ := hA.listUnlink hx
  refine ⟨h'.initListHead x, ?_, (hh h' (fun _ _ => ⟨rfl, rfl⟩)).initListHead hfree⟩
  unfold Links.listDelInit
  rw [happly]
  rfl

theorem Holds.listMove (hA : h.Holds A) (hx : A.On x) (hhead : A.Head head) :
    ∃ h', h.listMove x head = some h' ∧ h'.Holds ((A.erase x).modify head (x :: ·)) := by
  obtain ⟨h', happly, hfree, hh⟩ := hA.listUnlink hx
  unfold Links.listMove
  rw [happly]
  exact (hh h' (fun _ _ => ⟨rfl, rfl⟩)).listAdd hfree (head_erase hhead)

theorem Holds.listMoveTail (hA : h.Holds A) (hx : A.On x) (hhead : A.Head head) :
    ∃ h', h.listMoveTail x head = some h' ∧ h'.Holds ((A.erase x).modify head (· ++ [x])) := by
  obtain ⟨h', happly, hfree, hh⟩ := hA.listUnlink hx
  unfold Links.listMoveTail
  rw [happly]
  exact (hh h' (fun _ _ => ⟨rfl, rfl⟩)).listAddTail hfree (head_erase hhead)

/-- `list_empty` tells whether the list is empty. -/
theorem Ring.listEmpty (hr : h.Ring head xs) : h.listEmpty head = true ↔ xs = [] := by
  have hc := hr.1
  unfold Links.listEmpty
  rw [decide_eq_true_iff]
  cases xs with
  | nil =>
    rw [List.singleton_append, List.isChain_pair] at hc
    exact iff_of_true hc.1 rfl
  | cons x xs =>
    rw [List.cons_append, List.cons_append, List.isChain_cons_cons] at hc
    rw [hc.1.1]
    refine iff_of_false (fun heq => ?_) (List.cons_ne_nil _ _)
    exact (List.nodup_cons.mp hr.2).1 (Option.some.inj heq ▸ List.mem_cons_self)

/-- The nodes of a list that is not empty are put before those of another; the head they were under is free then. -/
theorem Holds.listSplice' {list : Node} {ys : List Node} (hA : h.Holds A) (hlist : A list = some xs) (hhead : A head = some ys)
    (hne : list ≠ head) (hxs : xs ≠ []) : ∃ h', h.listSplice' list head = some h' ∧
      Lists.Free (Function.update (A.modify head (xs ++ ·)) list none) list ∧
      h'.Holds (Function.update (A.modify head (xs ++ ·)) list none) := by
  have hdisjoint := hA.apart list head xs ys hlist hhead hne
  obtain ⟨h', happly, hr, hs⟩ := (hA.ring list xs hlist).listSplice' (hA.ring head ys hhead) hxs hdisjoint
  unfold Lists.modify
  rw [hhead, Option.map_some]
  have hnodup := List.nodup_cons.mp (hA.ring list xs hlist).2
  -- a list of the memory afterwards is the one spliced, or one of the others
  have hB : ∀ head' xs', Function.update (Function.update A head (some (xs ++ ys))) list none head' = some xs' →
      head' = head ∧ xs' = xs ++ ys ∨ head' ≠ list ∧ head' ≠ head ∧ A head' = some xs' := by
    intro head' xs' hB
    have hnl : head' ≠ list := by
      rintro rfl
      rw [Function.update_self] at hB
      cases hB
    rw [Function.update_of_ne hnl] at hB
    rcases eq_or_ne head' head with rfl | hnh
    · rw [Function.update_self] at hB
      cases hB
      exact Or.inl ⟨rfl, rfl⟩
    · rw [Function.update_of_ne hnh] at hB
      exact Or.inr ⟨hnl, hnh, hB⟩
  have hoff : ∀ head' xs', head' ≠ list → head' ≠ head → A head' = some xs' → ∀ y ∈ head' :: xs', y ∉ xs ++ head :: ys := by
    intro head' xs' hnl hnh hold y hy hm
    rcases List.mem_append.mp hm with hm | hm
    · exact hA.apart head' list xs' xs hold hlist hnl hy (List.mem_cons_of_mem _ hm)
    · exact hA.apart head' head xs' ys hold hhead hnh hy hm
  refine ⟨h', happly, ⟨Function.update_self .., fun head' hm => ?_⟩, hA.frame hs (fun head' xs' hold => ?_)
    (fun head₁ head₂ xs₁ xs₂ h₁ h₂ hm₁ hm₂ => ?_)⟩
  · obtain ⟨xs', hold, hm⟩ := exists_of_mem_nodes hm
    rcases hB head' xs' hold with ⟨rfl, rfl⟩ | ⟨hnl, _, hold⟩
    · rcases List.mem_append.mp hm with hm | hm
      · exact hnodup.1 hm
      · exact hdisjoint List.mem_cons_self (List.mem_cons_of_mem _ hm)
    · exact hA.apart head' list xs' xs hold hlist hnl (List.mem_cons_of_mem _ hm) List.mem_cons_self
  · rcases hB head' xs' hold with ⟨rfl, rfl⟩ | ⟨hnl, hnh, hold⟩
    · refine Or.inl ⟨hr, fun y hy => ?_⟩
      simp only [List.mem_cons, List.mem_append] at hy ⊢
      tauto
    · exact Or.inr ⟨hold, hoff head' xs' hnl hnh hold⟩
  · have hself : ∀ head' xs', Function.update (Function.update A head (some (xs ++ ys))) list none head' = some xs' →
        head' ∈ xs ++ head :: ys → head' = head := by
      intro head' xs' hold hm
      rcases hB head' xs' hold with ⟨heq, _⟩ | ⟨hnl, hnh, hold⟩
      · exact heq
      · exact absurd hm (hoff head' xs' hnl hnh hold head' List.mem_cons_self)
    rw [hself head₁ xs₁ h₁ hm₁, hself head₂ xs₂ h₂ hm₂]

theorem Holds.listSplice {list : Node} (hA : h.Holds A) (hlist : A.Head list) (hhead : A.Head head) (hne : list ≠ head) :
    ∃ h', h.listSplice list head = some h' ∧ h'.Holds (ListOp.spec A (.splice list head)) := by
  obtain ⟨xs, hlist⟩ := Option.isSome_iff_exists.mp hlist
  obtain ⟨ys, hhead⟩ := Option.isSome_iff_exists.mp hhead
  have hempty := (hA.ring list xs hlist).listEmpty
  rw [Links.listSplice, ListOp.spec, nodes_eq hlist]
  by_cases hxs : xs = []
  · rw [if_pos (hempty.mpr hxs), if_pos hxs]
    exact ⟨h, rfl, hA⟩
  · rw [if_neg (fun he => hxs (hempty.mp he)), if_neg hxs]
    obtain ⟨h', happly, _, hh⟩ := hA.listSplice' hlist hhead hne hxs
    exact ⟨h', happly, hh⟩

theorem Holds.listSpliceInit {list : Node} (hA : h.Holds A) (hlist : A.Head list) (hhead : A.Head head) (hne : list ≠ head) :
    ∃ h', h.listSpliceInit list head = some h' ∧ h'.Holds (ListOp.spec A (.spliceInit list head)) := by
  obtain ⟨xs, hlist⟩ := Option.isSome_iff_exists.mp hlist
  obtain ⟨ys, hhead⟩ := Option.isSome_iff_exists.mp hhead
  have hempty := (hA.ring list xs hlist).listEmpty
  rw [Links.listSpliceInit, ListOp.spec, nodes_eq hlist]
  by_cases hxs : xs = []
  · rw [if_pos (hempty.mpr hxs)]
    have hsame : Function.update (A.modify head (xs ++ ·)) list (some []) = A := by
      have hmodify : A.modify head (xs ++ ·) = A := by
        unfold Lists.modify
        rw [hhead, hxs, Option.map_some, List.nil_append, ← hhead, Function.update_eq_self]
      rw [hmodify, ← hxs, ← hlist, Function.update_eq_self]
    rw [hsame]
    exact ⟨h, rfl, hA⟩
  · rw [if_neg (fun he => hxs (hempty.mp he))]
    obtain ⟨h', happly, hfree, hh⟩ := hA.listSplice' hlist hhead hne hxs
    refine ⟨h'.initListHead list, by rw [happly]; rfl, ?_⟩
    have hinit := hh.initListHead hfree
    rwa [Function.update_idem] at hinit

/-! ## The loops -/

/-- A loop forward visits the nodes on the way to the head. -/
theorem listForEach_chain (hc : (xs ++ [head]).IsChain h.Linked) (hhead : head ∉ xs) {turns : Nat} (ht : xs.length < turns) :
    h.listForEach head turns (xs ++ [head]).head? = some xs := by
  induction xs generalizing turns with
  | nil =>
    obtain ⟨turns, rfl⟩ := Nat.exists_eq_add_of_lt ht
    exact if_pos rfl
  | cons x xs ih =>
    obtain ⟨turns, rfl⟩ : ∃ n, turns = n + 1 := ⟨turns - 1, by rw [List.length_cons] at ht; omega⟩
    rw [List.mem_cons, not_or] at hhead
    have hnext : h.next x = (xs ++ [head]).head? := by
      obtain ⟨n, v, hfirst⟩ := exists_first xs head
      rw [List.cons_append, hfirst, List.isChain_cons_cons] at hc
      rw [hfirst]
      exact hc.1.1
    change (if x = head then some [] else (h.listForEach head turns (h.next x)).map (x :: ·)) = some (x :: xs)
    rw [if_neg (Ne.symm hhead.1), hnext, ih hc.of_cons hhead.2 (by rw [List.length_cons] at ht; omega)]
    rfl

/-- The links the other way round. -/
def reverse (h : Links Node) : Links Node := { next := h.prev, prev := h.next }

omit [DecidableEq Node] in
theorem Ring.reverse (hr : h.Ring head xs) : h.reverse.Ring head xs.reverse := by
  have hnodup := List.nodup_cons.mp hr.2
  refine ⟨?_, List.nodup_cons.mpr ⟨fun hm => hnodup.1 (List.mem_reverse.mp hm), List.nodup_reverse.mpr hnodup.2⟩⟩
  have hrev : head :: xs.reverse ++ [head] = (head :: xs ++ [head]).reverse := by simp
  rw [hrev, List.isChain_reverse]
  exact hr.1.imp (fun _ _ hl => ⟨hl.2, hl.1⟩)

/-- A loop backwards is a loop forward over the links the other way round. -/
theorem listForEachPrev_eq (h : Links Node) (head : Node) (turns : Nat) (pos : Option Node) :
    h.listForEachPrev head turns pos = h.reverse.listForEach head turns pos := by
  induction turns generalizing pos with
  | zero => rfl
  | succ turns ih =>
    cases pos with
    | none => rfl
    | some pos =>
      change (if pos = head then some [] else (h.listForEachPrev head turns (h.prev pos)).map (pos :: ·)) =
        (if pos = head then some [] else (h.reverse.listForEach head turns (h.prev pos)).map (pos :: ·))
      rw [ih]

omit [DecidableEq Node] in
/-- The first turn of a loop. -/
theorem Ring.next_head (hr : h.Ring head xs) : h.next head = (xs ++ [head]).head? := by
  obtain ⟨n, v, hfirst⟩ := exists_first xs head
  have hc := hr.1
  rw [List.cons_append, hfirst, List.isChain_cons_cons] at hc
  rw [hfirst]
  exact hc.1.1

/-- The loops visit the nodes of a list in order. -/
theorem Ring.listForEach (hr : h.Ring head xs) {turns : Nat} (ht : xs.length < turns) :
    h.listForEach head turns (h.next head) = some xs := by
  rw [hr.next_head]
  have hc := hr.1
  rw [List.cons_append] at hc
  exact listForEach_chain hc.of_cons (List.nodup_cons.mp hr.2).1 ht

theorem Ring.listForEachPrev (hr : h.Ring head xs) {turns : Nat} (ht : xs.length < turns) :
    h.listForEachPrev head turns (h.prev head) = some xs.reverse := by
  rw [listForEachPrev_eq]
  exact hr.reverse.listForEach (by rwa [List.length_reverse])

/-- A rule for the loop whose body may take the node it is run on off the list: `I` holds of the nodes to come and the state. The
body leaves the nodes to come linked. -/
theorem listForEachSafe_rule {σ : Type v} {links : σ → Links Node} {body : σ → Node → Option σ} (I : List Node → σ → Prop)
    (hchain : ∀ rest s, I rest s → (rest ++ [head]).IsChain (links s).Linked ∧ head ∉ rest)
    (hbody : ∀ x rest s, I (x :: rest) s → ∃ s', body s x = some s' ∧ I rest s') {s : σ} (hI : I xs s) {n : Option Node}
    (hn : ∀ x rest, xs = x :: rest → n = (rest ++ [head]).head?) {turns : Nat} (ht : xs.length < turns) :
    ∃ s', Links.listForEachSafe links body head turns s (xs ++ [head]).head? n = some s' ∧ I [] s' := by
  induction xs generalizing s n turns with
  | nil =>
    obtain ⟨turns, rfl⟩ := Nat.exists_eq_add_of_lt ht
    exact ⟨s, if_pos rfl, hI⟩
  | cons x rest ih =>
    obtain ⟨turns, rfl⟩ : ∃ n, turns = n + 1 := ⟨turns - 1, by rw [List.length_cons] at ht; omega⟩
    have hx : x ≠ head := fun heq => (hchain _ s hI).2 (heq ▸ List.mem_cons_self)
    obtain ⟨s', hs', hI'⟩ := hbody x rest s hI
    obtain ⟨next, v, hfirst⟩ := exists_first rest head
    have hcached : n = some next := by
      rw [hn x rest rfl, hfirst]
      rfl
    -- the node that was read before the body is run is still linked to the next but one
    have hnext : ∀ y rest', rest = y :: rest' → (links s').next next = (rest' ++ [head]).head? := by
      rintro y rest' rfl
      obtain ⟨z, w, hsecond⟩ := exists_first rest' head
      have hc := (hchain _ s' hI').1
      rw [List.cons_append, hsecond] at hfirst hc
      cases hfirst
      rw [hsecond]
      exact (List.isChain_cons_cons.mp hc).1.1
    have hturns : rest.length < turns := by
      rw [List.length_cons] at ht
      omega
    obtain ⟨t, ht', hIt⟩ := ih hI' hnext hturns
    refine ⟨t, ?_, hIt⟩
    change (if x = head then some s else (body s x).bind (fun s => n.bind (fun next =>
      Links.listForEachSafe links body head turns s n ((links s).next next)))) = some t
    rw [hfirst] at ht'
    rw [if_neg hx, hs', hcached]
    exact ht'

end Functions

end Links

section Runs

variable [DecidableEq Node] {A A' : Lists Node}

/-- A function that is used properly does what it is for. -/
theorem ListOp.apply_holds {op : ListOp Node} (hA : h.Holds A) (hop : op.Proper A) :
    ∃ h', op.apply h = some h' ∧ h'.Holds (op.spec A) := by
  cases op with
  | init head => exact ⟨_, rfl, hA.initListHead hop⟩
  | add new head => exact hA.listAdd hop.1 hop.2
  | addTail new head => exact hA.listAddTail hop.1 hop.2
  | del entry => exact hA.listDel hop
  | delInit entry => exact hA.listDelInit hop
  | move entry head => exact hA.listMove hop.1 hop.2
  | moveTail entry head => exact hA.listMoveTail hop.1 hop.2
  | splice list head => exact hA.listSplice hop.1 hop.2.1 hop.2.2
  | spliceInit list head => exact hA.listSpliceInit hop.1 hop.2.1 hop.2.2

/-- So do several functions, one after the other. -/
theorem ListOp.run_holds {ops : List (ListOp Node)} (hA : h.Holds A)
    (hrun : Run (fun A op => some (ListOp.spec A op)) (fun A op => ListOp.Proper A op) A ops A') :
    ∃ h', execute (fun h op => ListOp.apply h op) h ops = some h' ∧ h'.Holds A' := by
  induction hrun generalizing h with
  | nil A => exact ⟨h, rfl, hA⟩
  | cons hop hstep _ ih =>
    cases hstep
    obtain ⟨h', happly, hA'⟩ := ListOp.apply_holds hA hop
    obtain ⟨h'', hexec, hA''⟩ := ih hA'
    refine ⟨h'', ?_, hA''⟩
    rw [execute, happly]
    exact hexec

/-- The first entry of one list goes to the head of another. -/
theorem Links.Holds.moveEntry {src dst : Node} {ys : List Node} (hA : h.Holds A) (hsrc : A src = some (x :: xs)) (hdst : A dst = some ys)
    (hne : src ≠ dst) : ∃ h', h.moveEntry x dst = some h' ∧
      h'.Holds (Function.update (Function.update A src (some xs)) dst (some (x :: ys))) := by
  have hon : A.On x := ⟨src, by rw [Links.nodes_eq hsrc]; exact List.mem_cons_self⟩
  obtain ⟨h₁, hdel, hfree, hh⟩ := hA.listUnlink hon
  have hheld := hh ((h₁.setNext x none).setPrev x none) (fun y hy => by
    rw [List.mem_singleton] at hy
    exact ⟨Function.update_of_ne hy .., Function.update_of_ne hy ..⟩)
  have herase : A.erase x = Function.update A src (some xs) := by
    rw [hA.erase_eq hsrc List.mem_cons_self, List.erase_cons_head]
  rw [herase] at hfree hheld
  have hdst' : Function.update A src (some xs) dst = some ys := by rw [Function.update_of_ne hne.symm, hdst]
  obtain ⟨h₂, hadd, hheld₂⟩ := hheld.listAdd hfree (Links.isHead hdst')
  refine ⟨h₂, ?_, ?_⟩
  · unfold Links.moveEntry Links.listDel
    rw [hdel]
    exact hadd
  · unfold Lists.modify at hheld₂
    rwa [hdst'] at hheld₂

/-- The loop of `direct_rename`, which deletes the entries it is run over: it comes to an end, does what its calls do one after the
other, and all entries are at the head of the other list then, the last one first. -/
theorem rename_loop {src dst : Node} {ys : List Node} (hA : h.Holds A) (hsrc : A src = some xs) (hdst : A dst = some ys)
    (hne : src ≠ dst) {turns : Nat} (ht : xs.length < turns) :
    ∃ h', Links.listForEachSafe id (fun h entry => h.moveEntry entry dst) src turns h (h.next src) ((h.next src).bind h.next) = some h' ∧
      execute (fun h op => ListOp.apply h op) h (moves dst xs) = some h' ∧
      h'.Holds (Function.update (Function.update A src (some [])) dst (some (xs.reverse ++ ys))) := by
  let I : List Node → Links Node → Prop := fun rest g => ∃ done, xs = done ++ rest ∧
    execute (fun h op => ListOp.apply h op) h (moves dst done) = some g ∧
    g.Holds (Function.update (Function.update A src (some rest)) dst (some (done.reverse ++ ys)))
  have hlist : ∀ rest zs, Function.update (Function.update A src (some rest)) dst (some zs) src = some rest := by
    intro rest zs
    rw [Function.update_of_ne hne, Function.update_self]
  have hring := hA.ring src xs hsrc
  have hsame : Function.update (Function.update A src (some xs)) dst (some ys) = A := by
    rw [← hsrc, Function.update_eq_self, ← hdst, Function.update_eq_self]
  have hI : I xs h := ⟨[], rfl, rfl, by rw [List.reverse_nil, List.nil_append, hsame]; exact hA⟩
  have hloop : ∃ h', Links.listForEachSafe id (fun h entry => h.moveEntry entry dst) src turns h (xs ++ [src]).head?
      ((h.next src).bind h.next) = some h' ∧ I [] h' := by
    refine Links.listForEachSafe_rule I (fun rest g hg => ?chain) (fun x rest g hg => ?body) hI (fun x rest hxs => ?next) ht
    case chain =>
      obtain ⟨_, _, _, hheld⟩ := hg
      have hr := hheld.ring src rest (hlist rest _)
      have hc := hr.1
      rw [List.cons_append] at hc
      exact ⟨hc.of_cons, (List.nodup_cons.mp hr.2).1⟩
    case body =>
      obtain ⟨done, hdone, hexec, hheld⟩ := hg
      obtain ⟨g', hmove, hheld'⟩ := hheld.moveEntry (hlist (x :: rest) _) (Function.update_self ..) hne
      refine ⟨g', hmove, done ++ [x], by rw [hdone, List.append_assoc, List.singleton_append], ?_, ?_⟩
      · have hsplit : moves dst (done ++ [x]) = moves dst done ++ [.del x, .add x dst] := by
          unfold moves
          rw [List.flatMap_append, List.flatMap_singleton]
        rw [hsplit, execute_append, hexec]
        unfold Links.moveEntry at hmove
        rw [Option.bind_eq_some_iff] at hmove
        obtain ⟨g₁, hdel, hadd⟩ := hmove
        change (g.listDel x).bind (fun g => (g.listAdd x dst).bind some) = some g'
        rw [hdel, Option.bind_some, hadd]
        rfl
      · rw [Function.update_comm hne.symm, Function.update_idem, Function.update_idem] at hheld'
        rwa [List.reverse_concat, List.cons_append]
    case next =>
      have hc := hring.1
      obtain ⟨n, v, hfirst⟩ := Links.exists_first rest src
      rw [hxs, List.cons_append, List.cons_append, hfirst, List.isChain_cons_cons, List.isChain_cons_cons] at hc
      rw [hc.1.1, hfirst]
      exact hc.2.1.1
  obtain ⟨h', hend, done, hdone, hexec, hheld⟩ := hloop
  rw [List.append_nil] at hdone
  subst hdone
  rw [← hring.next_head] at hend
  exact ⟨h', hend, hexec, hheld⟩

/-- Whatever is done to the lists, properly and in whatever order, the functions of `list.h` do it without following a NULL pointer:
afterwards the loops visit, in both directions, the nodes that the lists have then, and `list_empty` finds the empty ones. -/
theorem links_refine_lists {ops : List (ListOp Node)} (hA : h.Holds A)
    (hrun : Run (fun A op => some (ListOp.spec A op)) (fun A op => ListOp.Proper A op) A ops A') :
    ∃ h', execute (fun h op => ListOp.apply h op) h ops = some h' ∧ h'.Holds A' ∧ ∀ head xs, A' head = some xs →
      (∀ turns, xs.length < turns → h'.listForEach head turns (h'.next head) = some xs ∧
        h'.listForEachPrev head turns (h'.prev head) = some xs.reverse) ∧ (h'.listEmpty head = true ↔ xs = []) := by
  obtain ⟨h', hexec, hA'⟩ := ListOp.run_holds hA hrun
  refine ⟨h', hexec, hA', fun head xs hxs => ⟨fun turns ht => ?_, (hA'.ring head xs hxs).listEmpty⟩⟩
  exact ⟨(hA'.ring head xs hxs).listForEach ht, (hA'.ring head xs hxs).listForEachPrev ht⟩

/-- Two lists are made, filled and joined, and one entry is taken off again. -/
theorem links_refine_lists_joined : ∃ h' : Links (Bool × Bool),
    execute (fun h op => ListOp.apply h op) { next := fun _ => none, prev := fun _ => none }
      [.init (false, false), .init (false, true), .add (true, false) (false, false), .addTail (true, true) (false, false),
        .spliceInit (false, false) (false, true), .del (true, false)] = some h' ∧
    h'.listForEach (false, true) 2 (h'.next (false, true)) = some [(true, true)] ∧
    h'.listEmpty (false, false) = true := by
  have hrun : Run (fun A op => some (ListOp.spec A op)) (fun A op => ListOp.Proper A op) (fun _ : Bool × Bool => none)
      [.init (false, false), .init (false, true), .add (true, false) (false, false), .addTail (true, true) (false, false),
        .spliceInit (false, false) (false, true), .del (true, false)] _ :=
    .cons ⟨rfl, by decide⟩ rfl <| .cons ⟨rfl, by decide⟩ rfl <| .cons ⟨⟨rfl, by decide⟩, rfl⟩ rfl <|
      .cons ⟨⟨rfl, by decide⟩, rfl⟩ rfl <| .cons ⟨rfl, rfl, by decide⟩ rfl <| .cons ⟨(false, true), by decide⟩ rfl (.nil _)
  obtain ⟨h', hexec, _, hlists⟩ := links_refine_lists (Links.holds_no_lists _) hrun
  exact ⟨h', hexec, ((hlists (false, true) [(true, true)] rfl).1 2 (by decide)).1, (hlists (false, false) [] rfl).2.mpr rfl⟩

end Runs

end FuseCompress
