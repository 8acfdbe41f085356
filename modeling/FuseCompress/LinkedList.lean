import Mathlib.Data.List.Basic
import Mathlib.Logic.Function.Basic

/-!
# The linked lists

`list.h`: circular lists whose links are fields of the entries, and whose heads are nodes as well. A node is on one list at most,
and one memory holds the nodes of all lists. A function is `none` where it follows a NULL pointer.
-/

namespace FuseCompress

universe u v

/-- The fields `next` and `prev` of every `struct list_head`; `none` is NULL. -/
structure Links (Node : Type u) where
  next : Node → Option Node
  prev : Node → Option Node

namespace Links

variable {Node : Type u} [DecidableEq Node]

/-- `x->next = y`. -/
def setNext (h : Links Node) (x : Node) (y : Option Node) : Links Node := { h with next := Function.update h.next x y }

/-- `x->prev = y`. -/
def setPrev (h : Links Node) (x : Node) (y : Option Node) : Links Node := { h with prev := Function.update h.prev x y }

/-- `INIT_LIST_HEAD`. -/
def initListHead (h : Links Node) (ptr : Node) : Links Node := (h.setNext ptr (some ptr)).setPrev ptr (some ptr)

/-- `__list_add`. -/
def listAdd' (h : Links Node) (new prev next : Node) : Links Node :=
  (((h.setPrev next (some new)).setNext new (some next)).setPrev new (some prev)).setNext prev (some new)

/-- `list_add`. -/
def listAdd (h : Links Node) (new head : Node) : Option (Links Node) := (h.next head).map (h.listAdd' new head)

/-- `list_add_tail`. -/
def listAddTail (h : Links Node) (new head : Node) : Option (Links Node) :=
  (h.prev head).map (fun prev => h.listAdd' new prev head)

/-- `__list_del`. -/
def listDel' (h : Links Node) (prev next : Node) : Links Node := (h.setPrev next (some prev)).setNext prev (some next)

/-- `__list_del(entry->prev, entry->next)`. -/
def listUnlink (h : Links Node) (entry : Node) : Option (Links Node) :=
  (h.prev entry).bind (fun prev => (h.next entry).map (h.listDel' prev))

/-- `list_del`. -/
def listDel (h : Links Node) (entry : Node) : Option (Links Node) :=
  (h.listUnlink entry).map (fun h => (h.setNext entry none).setPrev entry none)

/-- `list_del_init`. -/
def listDelInit (h : Links Node) (entry : Node) : Option (Links Node) := (h.listUnlink entry).map (fun h => h.initListHead entry)

/-- `list_move`. -/
def listMove (h : Links Node) (entry head : Node) : Option (Links Node) :=
  (h.listUnlink entry).bind (fun h => h.listAdd entry head)

/-- `list_move_tail`. -/
def listMoveTail (h : Links Node) (entry head : Node) : Option (Links Node) :=
  (h.listUnlink entry).bind (fun h => h.listAddTail entry head)

/-- `list_empty`. -/
def listEmpty (h : Links Node) (head : Node) : Bool := h.next head = some head

/-- `__list_splice`. -/
def listSplice' (h : Links Node) (list head : Node) : Option (Links Node) :=
  (h.next list).bind (fun first => (h.prev list).bind (fun last => (h.next head).map (fun pos =>
    (((h.setPrev first (some head)).setNext head (some first)).setNext last (some pos)).setPrev pos (some last))))

/-- `list_splice`. -/
def listSplice (h : Links Node) (list head : Node) : Option (Links Node) :=
  if h.listEmpty list then some h else h.listSplice' list head

/-- `list_splice_init`. -/
def listSpliceInit (h : Links Node) (list head : Node) : Option (Links Node) :=
  if h.listEmpty list then some h else (h.listSplice' list head).map (fun h => h.initListHead list)

/-- `list_for_each` and `list_for_each_entry`, from `pos` on and for at most so many turns: the nodes visited. -/
def listForEach (h : Links Node) (head : Node) : Nat → Option Node → Option (List Node)
  | 0, _ => none
  | _ + 1, none => none
  | turns + 1, some pos => if pos = head then some [] else (h.listForEach head turns (h.next pos)).map (pos :: ·)

/-- `list_for_each_prev`. -/
def listForEachPrev (h : Links Node) (head : Node) : Nat → Option Node → Option (List Node)
  | 0, _ => none
  | _ + 1, none => none
  | turns + 1, some pos => if pos = head then some [] else (h.listForEachPrev head turns (h.prev pos)).map (pos :: ·)

/-- `list_for_each_safe` and `list_for_each_entry_safe`, from `pos` on: `n` is the node after it, read before the body is run. The
body changes a state of which the links are a part. -/
def listForEachSafe {σ : Type v} (links : σ → Links Node) (body : σ → Node → Option σ) (head : Node) :
    Nat → σ → Option Node → Option Node → Option σ
  | 0, _, _, _ => none
  | _ + 1, _, none, _ => none
  | turns + 1, s, some pos, n =>
    if pos = head then some s
    else (body s pos).bind (fun s => n.bind (fun next => listForEachSafe links body head turns s n ((links s).next next)))

end Links

/-- A call of one of the functions that change lists. -/
inductive ListOp (Node : Type u) where
  | init (head : Node)
  | add (new head : Node)
  | addTail (new head : Node)
  | del (entry : Node)
  | delInit (entry : Node)
  | move (entry head : Node)
  | moveTail (entry head : Node)
  | splice (list head : Node)
  | spliceInit (list head : Node)
  deriving DecidableEq, Repr

section Operations

variable {Node : Type u} [DecidableEq Node]

/-- What the call does to the links. -/
def ListOp.apply (h : Links Node) : ListOp Node → Option (Links Node)
  | .init head => some (h.initListHead head)
  | .add new head => h.listAdd new head
  | .addTail new head => h.listAddTail new head
  | .del entry => h.listDel entry
  | .delInit entry => h.listDelInit entry
  | .move entry head => h.listMove entry head
  | .moveTail entry head => h.listMoveTail entry head
  | .splice list head => h.listSplice list head
  | .spliceInit list head => h.listSpliceInit list head

/-- The body of the loop of `direct_rename`: an entry is deleted and added to another list. -/
def Links.moveEntry (h : Links Node) (entry head : Node) : Option (Links Node) :=
  (h.listDel entry).bind (fun h => h.listAdd entry head)

/-- The calls of that loop. -/
def moves (head : Node) (entries : List Node) : List (ListOp Node) := entries.flatMap (fun entry => [.del entry, .add entry head])

/-! ## What they are for -/

/-- Lists of nodes under their heads. -/
abbrev Lists (Node : Type u) := Node → Option (List Node)

/-- The node is taken off the list it is on. -/
def Lists.erase (A : Lists Node) (x : Node) : Lists Node := fun head => (A head).map (fun xs => xs.erase x)

/-- The list of a head becomes what `g` makes of it. -/
def Lists.modify (A : Lists Node) (head : Node) (g : List Node → List Node) : Lists Node :=
  Function.update A head ((A head).map g)

/-- The nodes of a list, or none. -/
def Lists.nodes (A : Lists Node) (head : Node) : List Node := (A head).getD []

/-- What the call is to do with the lists. -/
def ListOp.spec (A : Lists Node) : ListOp Node → Lists Node
  | .init head => Function.update A head (some [])
  | .add new head => A.modify head (new :: ·)
  | .addTail new head => A.modify head (· ++ [new])
  | .del entry => A.erase entry
  | .delInit entry => Function.update (A.erase entry) entry (some [])
  | .move entry head => (A.erase entry).modify head (entry :: ·)
  | .moveTail entry head => (A.erase entry).modify head (· ++ [entry])
  | .splice list head =>
    if A.nodes list = [] then A else Function.update (A.modify head (A.nodes list ++ ·)) list none
  | .spliceInit list head => Function.update (A.modify head (A.nodes list ++ ·)) list (some [])

/-- The node is neither a head nor on a list. -/
def Lists.Free (A : Lists Node) (x : Node) : Prop := A x = none ∧ ∀ head, x ∉ A.nodes head

/-- The node is on a list. -/
def Lists.On (A : Lists Node) (x : Node) : Prop := ∃ head, x ∈ A.nodes head

/-- The node is a head. -/
def Lists.Head (A : Lists Node) (head : Node) : Prop := (A head).isSome = true

/-- What the caller has to see to: a node that is added is on no list, one that is taken off is on one, and the heads are heads. -/
def ListOp.Proper (A : Lists Node) : ListOp Node → Prop
  | .init head => A.Free head
  | .add new head => A.Free new ∧ A.Head head
  | .addTail new head => A.Free new ∧ A.Head head
  | .del entry => A.On entry
  | .delInit entry => A.On entry
  | .move entry head => A.On entry ∧ A.Head head
  | .moveTail entry head => A.On entry ∧ A.Head head
  | .splice list head => A.Head list ∧ A.Head head ∧ list ≠ head
  | .spliceInit list head => A.Head list ∧ A.Head head ∧ list ≠ head

end Operations

end FuseCompress
