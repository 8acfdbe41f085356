import FuseCompress.Books
import FuseCompress.Interleaving
import FuseCompress.LinkedList

/-!
# The calls of `list.h` that the program makes

The database, the queue of the background thread and the descriptors of each entry are circular lists in the memory of the program.
Here is, for each step of the program, which functions of `list.h` it calls, with which nodes and in which order, and the program
together with the memory that these calls change. The table of duplicates has lists of its own and is left out.
-/

namespace FuseCompress

/-- A `struct list_head` of the program. The queue entries are numbered in the order in which they are allocated. -/
inductive ListNode where
  /-- `database.head`. -/
  | database
  /-- `comp_database.head`. -/
  | comp
  /-- The field `list` of an entry. -/
  | file (f : Nat)
  /-- The field `head` of an entry. -/
  | head (f : Nat)
  /-- The field `list` of a descriptor. -/
  | desc (d : Nat)
  /-- The field `list` of a queue entry. -/
  | entry (i : Nat)
  deriving DecidableEq, Repr

/-! ## What the functions call -/

/-- The end of `fusecompress_open`: a new descriptor is added. -/
def openCalls (f : Nat) : Reply → List (ListOp ListNode)
  | .opened d => [.add (.desc d) (.head f)]
  | _ => []

section Client

variable (Γ : Config) (env : Env) (s : State)

/-- The caller of `direct_open`, with the locked entry. -/
def callerCalls (f : Nat) : Caller → List (ListOp ListNode)
  | .open full writable =>
    match openUndedup Γ env s f writable with
    | (s, true) => if Γ.dedupEnabled ∧ writable then [] else openCalls f (openFile Γ env s f full writable).2
    | (_, false) => []
  | _ => []

/-- The loop of `direct_open`. -/
def waitCalls (f : Nat) (k : Caller) : List (ListOp ListNode) :=
  if k.stabile && (s.files f).status.busy then [] else callerCalls Γ env s f k

/-- `direct_new_file` and the end of `direct_open`. -/
def newCalls (k : Caller) : List (ListOp ListNode) :=
  [.init (.head s.nextFile), .addTail (.file s.nextFile) .database] ++
    callerCalls Γ env (directOpenAdd Γ s k.filename) s.nextFile k

/-- `direct_open`. -/
def startCalls (k : Caller) : List (ListOp ListNode) :=
  match findFile s k.filename with
  | some f => waitCalls Γ env (directOpenFound s f) f k
  | none => if s.entries > maxDatabaseLen + s.compEntries then [] else newCalls Γ env { s with entries := s.entries + 1 } k

/-- `_direct_open_purge` and `background_compress_dedup`, whose new entry has the number `made`. -/
def purgeCalls (force : Bool) (made f : Nat) : List (ListOp ListNode) :=
  let file := s.files f
  if file.accesses = 0 then
    if wantsCompress Γ env s.fs file || wantsDedup Γ file then [.addTail (.entry made) .comp] else [.del (.file f)]
  else if force then [.del (.file f)]
  else []

/-- The loop of `direct_rename`, over the descriptors that it finds in the memory `h`. -/
def renameCalls (h : Links ListNode) (src dst : Nat) : List (ListOp ListNode) :=
  moves (.head dst) ((h.listForEach (.head src) ((s.files src).head.length + 1) (h.next (.head src))).getD [])

/-- A thread that serves requests. -/
def clientCalls (h : Links ListNode) (made : Nat) : Pc → List (ListOp ListNode)
  | .opening k => startCalls Γ env s k
  | .purging (f :: _) _ force => purgeCalls Γ env s force made f
  | .purging [] (some k) _ => newCalls Γ env s k
  | .waiting k f _ => waitCalls Γ env s f k
  | .undeduped full f => openCalls f (openFile Γ env (s.unlock f) f full true).2
  | .renameSecond _ _ a b =>
    if (sysRename Γ env s.fs (s.files a).filename (s.files b).filename).2 then renameCalls s h a b else []
  | .fetched d .release _ => [.del (.desc d)]
  | _ => []

end Client

/-- `thread_compress` takes the first entry that it finds in the memory off the queue. -/
def workerCalls (h : Links ListNode) : WorkerPc → List (ListOp ListNode)
  | .idle => (h.next .comp).toList.map .del
  | _ => []

/-! ## The program and its memory -/

/-- The program, the links of its lists, and how many queue entries it has allocated. There are no links when a call has followed a
NULL pointer. -/
structure LinkedSys (T : Type) where
  sys : Sys T
  links : Option (Links ListNode)
  made : Nat

section System

variable {T : Type} [DecidableEq T]

/-- The calls of a step. -/
def Sys.listCalls (Γ : Config) (sys : Sys T) (h : Links ListNode) (made : Nat) : Label T → List (ListOp ListNode)
  | .client t env => clientCalls Γ env sys.shared h made (sys.clients t)
  | .worker _ => workerCalls h sys.worker
  | _ => []

/-- A step of the program, and what its calls do to the memory. -/
def LinkedSys.step (Γ : Config) (m : LinkedSys T) (l : Label T) : Option (LinkedSys T) :=
  (m.sys.step Γ l).map (fun sys =>
    { sys := sys
      links := m.links.bind (fun h => execute (fun h op => ListOp.apply h op) h (m.sys.listCalls Γ h m.made l))
      made := m.made + (sys.shared.comp.length - m.sys.shared.comp.length) })

/-- The heads of the database and of the queue, as they are initialised. -/
def Links.mounted : Links ListNode :=
  (Links.initListHead { next := fun _ => none, prev := fun _ => none } .database).initListHead .comp

/-- The program just after the mount. -/
def LinkedSys.mounted (fs : Backing) : LinkedSys T := { sys := Sys.mounted fs, links := some Links.mounted, made := 0 }

end System

/-! ## What the lists are for -/

/-- The lists of the books. `queue` numbers the queue entries; the heads of entries that have been freed are gone. -/
def Books.lists (b : Books) (queue : List Nat) : Lists ListNode
  | .database => some (b.database.map .file)
  | .comp => some (queue.map .entry)
  | .head f => if f < b.nextFile ∧ b.freed f = false then some ((b.head f).map .desc) else none
  | _ => none

/-- The calls, one after the other, are proper, and make of some lists others. -/
def ListOp.Steps (A : Lists ListNode) (ops : List (ListOp ListNode)) (A' : Lists ListNode) : Prop :=
  Run (fun A op => some (ListOp.spec A op)) (fun A op => ListOp.Proper A op) A ops A'

/-- So they are, and some of the lists are forgotten: those of an entry that is freed. -/
def ListOp.InOrder (A : Lists ListNode) (ops : List (ListOp ListNode)) (A' : Lists ListNode) : Prop :=
  ∃ A₁, ListOp.Steps A ops A₁ ∧ ∀ head xs, A' head = some xs → A₁ head = some xs

/-- What the loops and the tests of the program find in the memory: the entries of the database, the descriptors of each entry that has
not been freed, and the queue. -/
structure State.FoundIn (s : State) (h : Links ListNode) (queue : List Nat) : Prop where
  database : ∀ turns, s.database.length < turns →
    h.listForEach .database turns (h.next .database) = some (s.database.map .file)
  descs : ∀ f, f < s.nextFile → s.freed f = false → ∀ turns, (s.files f).head.length < turns →
    h.listForEach (.head f) turns (h.next (.head f)) = some ((s.files f).head.map .desc)
  numbered : queue.length = s.comp.length
  queue : ∀ turns, s.comp.length < turns → h.listForEach .comp turns (h.next .comp) = some (queue.map .entry)
  empty : h.listEmpty .comp = true ↔ s.comp = []

end FuseCompress
