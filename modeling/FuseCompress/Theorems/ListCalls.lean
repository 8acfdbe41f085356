import FuseCompress.Lemmas.Database
import FuseCompress.ListCalls
import FuseCompress.Theorems.LinkedList

/-!
# The lists of the program are never corrupted

Whatever the threads do, each step calls the functions of `list.h` properly: a node is added only when it is on no list, taken off only
the list it is on, and no list of an entry that has been freed is touched. So no call follows a NULL pointer, and the loops find in the
memory what the program counts on.
-/

namespace FuseCompress

variable {b b' : Books} {queue : List Nat} {h : Links ListNode} {A A' : Lists ListNode}

/-! ## Lists of nodes -/

section Nodes

/-- A memory holds also some of the lists that it holds. -/
theorem Links.Holds.forget (hh : h.Holds A) (hsub : ∀ head xs, A' head = some xs → A head = some xs) : h.Holds A' :=
  ⟨fun head xs hxs => hh.ring head xs (hsub head xs hxs),
    fun head head' xs xs' hxs hxs' => hh.apart head head' xs xs' (hsub head xs hxs) (hsub head' xs' hxs')⟩

/-- Calls that are in order follow no NULL pointer. -/
theorem ListOp.InOrder.holds {ops : List (ListOp ListNode)} (hio : ListOp.InOrder A ops A') (hh : h.Holds A) :
    ∃ h', execute (fun h op => ListOp.apply h op) h ops = some h' ∧ h'.Holds A' := by
  obtain ⟨A₁, hrun, hsub⟩ := hio
  obtain ⟨h', hexec, hh'⟩ := ListOp.run_holds hh hrun
  exact ⟨h', hexec, hh'.forget hsub⟩

/-- Proper calls that leave exactly the lists there are. -/
theorem ListOp.Steps.inOrder {ops : List (ListOp ListNode)} (hrun : ListOp.Steps A ops A') : ListOp.InOrder A ops A' :=
  ⟨A', hrun, fun _ _ => id⟩

/-- `Lists.modify` on a list there is. -/
theorem modify_eq {head : ListNode} {xs : List ListNode} (hhead : A head = some xs) (g : List ListNode → List ListNode) :
    A.modify head g = Function.update A head (some (g xs)) := by
  unfold Lists.modify
  rw [hhead]
  rfl

/-- The calls of the loop of `direct_rename`: by induction on the nodes to come. -/
theorem moves_steps {src dst : ListNode} {xs ys : List ListNode} (hh : h.Holds A) (hsrc : A src = some xs) (hdst : A dst = some ys)
    (hne : src ≠ dst) :
    ListOp.Steps A (moves dst xs) (Function.update (Function.update A src (some [])) dst (some (xs.reverse ++ ys))) := by
  induction xs generalizing A h ys with
  | nil =>
    rw [List.reverse_nil, List.nil_append, ← hsrc, Function.update_eq_self, ← hdst, Function.update_eq_self]
    exact .nil A
  | cons x xs ih =>
    have hon : A.On x := ⟨src, by rw [Links.nodes_eq hsrc]; exact List.mem_cons_self⟩
    obtain ⟨-, -, hfree, -⟩ := hh.listUnlink hon
    obtain ⟨h₁, -, hh₁⟩ := hh.listDel hon
    have herase : A.erase x = Function.update A src (some xs) := by
      rw [hh.erase_eq hsrc List.mem_cons_self, List.erase_cons_head]
    have hdst₁ : A.erase x dst = some ys := by
      rw [herase, Function.update_of_ne hne.symm]
      exact hdst
    obtain ⟨h₂, -, hh₂⟩ := hh₁.listAdd hfree (Links.isHead hdst₁)
    have hlists : (A.erase x).modify dst (x :: ·) = Function.update (Function.update A src (some xs)) dst (some (x :: ys)) := by
      rw [modify_eq hdst₁, herase]
    rw [hlists] at hh₂
    have hrest := ih hh₂ (by rw [Function.update_of_ne hne, Function.update_self]) (Function.update_self ..)
    rw [Function.update_comm hne.symm, Function.update_idem, Function.update_idem, ← hlists] at hrest
    rw [List.reverse_cons, List.append_assoc]
    exact .cons hon rfl (.cons ⟨hfree, Links.isHead hdst₁⟩ rfl hrest)

end Nodes

/-! ## The operations on the books -/

/-- The entry can be used: it has been made and has not been freed. -/
def Books.Usable (b : Books) (f : Nat) : Prop := f < b.nextFile ∧ b.freed f = false

section Operations

theorem Books.lists_head {f : Nat} (hf : b.Usable f) : b.lists queue (.head f) = some ((b.head f).map .desc) := if_pos hf

/-- What is on which list. -/
theorem Books.mem_nodes {x head : ListNode} (hx : x ∈ (b.lists queue).nodes head) :
    (head = .database ∧ ∃ f ∈ b.database, x = .file f) ∨ (head = .comp ∧ ∃ i ∈ queue, x = .entry i) ∨
      ∃ g, head = .head g ∧ ∃ d ∈ b.head g, x = .desc d := by
  obtain ⟨xs, hxs, hx⟩ := Links.exists_of_mem_nodes hx
  cases head with
  | database =>
    cases hxs
    obtain ⟨f, hf, rfl⟩ := List.mem_map.mp hx
    exact Or.inl ⟨rfl, f, hf, rfl⟩
  | comp =>
    cases hxs
    obtain ⟨i, hi, rfl⟩ := List.mem_map.mp hx
    exact Or.inr (Or.inl ⟨rfl, i, hi, rfl⟩)
  | head g =>
    rw [Books.lists] at hxs
    split at hxs
    · cases hxs
      obtain ⟨d, hd, rfl⟩ := List.mem_map.mp hx
      exact Or.inr (Or.inr ⟨g, rfl, d, hd, rfl⟩)
    · cases hxs
  | file f => cases hxs
  | desc d => cases hxs
  | entry i => cases hxs

/-- A descriptor in no list can be added to one. -/
theorem Books.free_desc {d : Nat} (hd : ∀ g, d ∉ b.head g) : (b.lists queue).Free (.desc d) := by
  refine ⟨rfl, fun head hm => ?_⟩
  rcases Books.mem_nodes hm with ⟨_, _, _, heq⟩ | ⟨_, _, _, heq⟩ | ⟨g, _, d', hd', heq⟩
  · cases heq
  · cases heq
  · cases heq
    exact hd g hd'

theorem Books.free_entry {i : Nat} (hi : i ∉ queue) : (b.lists queue).Free (.entry i) := by
  refine ⟨rfl, fun head hm => ?_⟩
  rcases Books.mem_nodes hm with ⟨_, _, _, heq⟩ | ⟨_, i', hi', heq⟩ | ⟨_, _, _, _, heq⟩
  · cases heq
  · cases heq
    exact hi hi'
  · cases heq

theorem Books.free_file {f : Nat} (hf : f ∉ b.database) : (b.lists queue).Free (.file f) := by
  refine ⟨rfl, fun head hm => ?_⟩
  rcases Books.mem_nodes hm with ⟨_, f', hf', heq⟩ | ⟨_, _, _, heq⟩ | ⟨_, _, _, _, heq⟩
  · cases heq
    exact hf hf'
  · cases heq
  · cases heq

/-- The head of an entry that has not been made is free. -/
theorem Books.free_head : (b.lists queue).Free (.head b.nextFile) := by
  refine ⟨if_neg (fun hlt => Nat.lt_irrefl _ hlt.1), fun head hm => ?_⟩
  rcases Books.mem_nodes hm with ⟨_, _, _, heq⟩ | ⟨_, _, _, heq⟩ | ⟨_, _, _, _, heq⟩ <;> cases heq

/-- A new entry brings an empty list and goes to the end of the database. -/
theorem Books.lists_newFile {filename : Filename} (halive : b.freed b.nextFile = false) :
    (b.newFile filename).lists queue = Function.update (Function.update (b.lists queue) (.head b.nextFile) (some [])) .database
      (some (b.database.map .file ++ [.file b.nextFile])) := by
  funext head
  cases head with
  | database =>
    rw [Function.update_self]
    exact congrArg some List.map_append
  | head g =>
    rw [Function.update_of_ne (by simp)]
    rcases eq_or_ne g b.nextFile with rfl | hne
    · rw [Function.update_self]
      refine (if_pos ⟨Nat.lt_succ_self _, halive⟩).trans (congrArg some ?_)
      change List.map ListNode.desc (Function.update b.head b.nextFile [] b.nextFile) = []
      rw [Function.update_self]
      rfl
    · rw [Function.update_of_ne (by simpa using hne)]
      change (if g < b.nextFile + 1 ∧ b.freed g = false then some (List.map ListNode.desc (Function.update b.head b.nextFile [] g))
        else none) = if g < b.nextFile ∧ b.freed g = false then some (List.map ListNode.desc (b.head g)) else none
      rw [Function.update_of_ne hne]
      have hlt : g < b.nextFile + 1 ↔ g < b.nextFile := by omega
      exact if_congr (and_congr_left' hlt) rfl rfl
  | comp => rfl
  | file g => rfl
  | desc d => rfl
  | entry i => rfl

/-- A list of descriptors changes. -/
theorem Books.lists_update_head {f : Nat} {ds : List Nat} (hf : b.Usable f) (hhead : b'.head = Function.update b.head f ds)
    (hdatabase : b'.database = b.database) (hnext : b'.nextFile = b.nextFile) (hfreed : b'.freed = b.freed) :
    b'.lists queue = Function.update (b.lists queue) (.head f) (some (ds.map .desc)) := by
  funext head
  cases head with
  | head g =>
    unfold Books.lists
    dsimp only
    rw [hhead, hnext, hfreed]
    rcases eq_or_ne g f with rfl | hne
    · rw [Function.update_self, Function.update_self]
      exact if_pos hf
    · rw [Function.update_of_ne hne, Function.update_of_ne (by simpa using hne)]
  | database => exact congrArg (fun database => some (List.map ListNode.file database)) hdatabase
  | comp => rfl
  | file g => rfl
  | desc d => rfl
  | entry i => rfl

/-- What the lists are made of stays. -/
theorem Books.lists_same (hhead : b'.head = b.head) (hdatabase : b'.database = b.database) (hnext : b'.nextFile = b.nextFile)
    (hfreed : b'.freed = b.freed) : b'.lists queue = b.lists queue := by
  funext head
  unfold Books.lists
  rw [hhead, hdatabase, hnext, hfreed]

/-- A new entry of the database. -/
theorem Books.newFile_steps {filename : Filename} (halive : b.freed b.nextFile = false) (hnew : b.nextFile ∉ b.database) :
    ListOp.Steps (b.lists queue) [.init (.head b.nextFile), .addTail (.file b.nextFile) .database]
      ((b.newFile filename).lists queue) := by
  have hdatabase : Function.update (b.lists queue) (.head b.nextFile) (some []) .database = some (b.database.map .file) := by
    rw [Function.update_of_ne (by simp)]
    rfl
  have hfree : Lists.Free (Function.update (b.lists queue) (.head b.nextFile) (some [])) (.file b.nextFile) := by
    refine ⟨(Function.update_of_ne (by simp) ..).trans rfl, fun head hm => ?_⟩
    unfold Lists.nodes at hm
    rcases eq_or_ne head (.head b.nextFile) with rfl | hne
    · rw [Function.update_self] at hm
      cases hm
    · rw [Function.update_of_ne hne] at hm
      exact (Books.free_file hnew).2 head hm
  have hlists := modify_eq hdatabase (· ++ [ListNode.file b.nextFile])
  rw [Books.lists_newFile halive, ← hlists]
  exact .cons Books.free_head rfl (.cons ⟨hfree, Links.isHead hdatabase⟩ rfl (.nil _))

/-- An entry leaves the database. -/
theorem Books.detach_steps {f : Nat} (hh : h.Holds (b.lists queue)) (hf : f ∈ b.database) :
    ListOp.Steps (b.lists queue) [.del (.file f)] ((b.detach f).lists queue) := by
  have hlist : b.lists queue .database = some (b.database.map .file) := rfl
  have hmem := List.mem_map_of_mem (f := ListNode.file) hf
  have hlists : (b.detach f).lists queue = (b.lists queue).erase (.file f) := by
    rw [hh.erase_eq hlist hmem]
    funext head
    cases head with
    | database =>
      rw [Function.update_self]
      exact congrArg some (List.map_erase (fun _ _ heq => ListNode.file.inj heq) ..)
    | _ => rfl
  rw [hlists]
  exact .cons (show Lists.On _ _ from ⟨.database, by rw [Links.nodes_eq hlist]; exact hmem⟩) rfl (.nil _)

/-- An entry is freed, and its list with it. -/
theorem Books.free_forgets {f : Nat} (head : ListNode) (xs : List ListNode) (hxs : (b.free f).lists queue head = some xs) :
    b.lists queue head = some xs := by
  cases head with
  | head g =>
    rw [Books.lists] at hxs ⊢
    split at hxs
    · rename_i hg
      refine (if_pos ⟨hg.1, ?_⟩).trans hxs
      have hg2 : Function.update b.freed f true g = false := hg.2
      rcases eq_or_ne g f with rfl | hne
      · rw [Function.update_self] at hg2
        cases hg2
      · rwa [Function.update_of_ne hne] at hg2
    · cases hxs
  | _ => exact hxs

/-- A new descriptor. -/
theorem Books.openDesc_steps {f : Nat} {writable : Bool} (hf : b.Usable f) (hnew : ∀ g, b.nextDesc ∉ b.head g) :
    ListOp.Steps (b.lists queue) [.add (.desc b.nextDesc) (.head f)] ((b.openDesc f writable).lists queue) := by
  have hlists : (b.openDesc f writable).lists queue = (b.lists queue).modify (.head f) (.desc b.nextDesc :: ·) := by
    rw [modify_eq (Books.lists_head hf)]
    have hhead : (b.openDesc f writable).head = Function.update b.head f (b.nextDesc :: b.head f) := rfl
    exact Books.lists_update_head hf hhead rfl rfl rfl
  rw [hlists]
  exact .cons ⟨Books.free_desc hnew, Links.isHead (Books.lists_head hf)⟩ rfl (.nil _)

/-- A descriptor is released. -/
theorem Books.release_steps {f d : Nat} (hh : h.Holds (b.lists queue)) (hf : b.Usable (b.owner d)) (hd : d ∈ b.head (b.owner d)) :
    ListOp.Steps (b.lists queue) [.del (.desc d)] ((b.release f d).lists queue) := by
  have hmem := List.mem_map_of_mem (f := ListNode.desc) hd
  have hlists : (b.release f d).lists queue = (b.lists queue).erase (.desc d) := by
    rw [hh.erase_eq (Books.lists_head hf) hmem, ← List.map_erase (fun _ _ heq => ListNode.desc.inj heq)]
    exact Books.lists_update_head hf rfl rfl rfl rfl
  rw [hlists]
  exact .cons (show Lists.On _ _ from ⟨.head (b.owner d), by rw [Links.nodes_eq (Books.lists_head hf)]; exact hmem⟩) rfl (.nil _)

/-- A new queue entry. -/
theorem Books.enqueue_steps {f i : Nat} {isDedup : Bool} (hi : i ∉ queue) :
    ListOp.Steps (b.lists queue) [.addTail (.entry i) .comp] ((b.enqueue f isDedup).lists (queue ++ [i])) := by
  have hlist : b.lists queue .comp = some (queue.map .entry) := rfl
  have hlists : (b.enqueue f isDedup).lists (queue ++ [i]) = (b.lists queue).modify .comp (· ++ [.entry i]) := by
    rw [modify_eq hlist]
    funext head
    cases head with
    | comp =>
      rw [Function.update_self]
      exact congrArg some List.map_append
    | _ => rfl
  rw [hlists]
  exact .cons ⟨Books.free_entry hi, Links.isHead hlist⟩ rfl (.nil _)

/-- The background thread takes the first queue entry. -/
theorem Books.dequeue_steps {i : Nat} {rest : List CompressT} (hh : h.Holds (b.lists (i :: queue))) :
    ListOp.Steps (b.lists (i :: queue)) [.del (.entry i)] (({ b with comp := rest } : Books).lists queue) := by
  have hlist : b.lists (i :: queue) .comp = some (.entry i :: queue.map .entry) := rfl
  have hlists : ({ b with comp := rest } : Books).lists queue = (b.lists (i :: queue)).erase (.entry i) := by
    rw [hh.erase_eq hlist List.mem_cons_self, List.erase_cons_head]
    funext head
    cases head with
    | comp => rw [Function.update_self]; rfl
    | _ => rfl
  rw [hlists]
  exact .cons (show Lists.On _ _ from ⟨.comp, by rw [Links.nodes_eq hlist]; exact List.mem_cons_self⟩) rfl (.nil _)

/-- The descriptors of one entry go to another. -/
theorem Books.rename_steps {x y : Nat} (hh : h.Holds (b.lists queue)) (hx : b.Usable x) (hy : b.Usable y) (hne : x ≠ y) :
    ListOp.Steps (b.lists queue) (moves (.head y) ((b.head x).map .desc)) ((b.rename x y).lists queue) := by
  have hmoved : (b.rename x y).head = Function.update (Function.update b.head x []) y ((b.head x).reverse ++ b.head y) := rfl
  let b₁ : Books := { b with head := Function.update b.head x [] }
  have h₁ : b₁.lists queue = Function.update (b.lists queue) (.head x) (some (([] : List Nat).map .desc)) :=
    Books.lists_update_head hx rfl rfl rfl rfl
  have h₂ : (b.rename x y).lists queue =
      Function.update (b₁.lists queue) (.head y) (some (((b.head x).reverse ++ b.head y).map .desc)) :=
    Books.lists_update_head hy hmoved rfl rfl rfl
  rw [h₂, h₁, List.map_append, List.map_reverse]
  exact moves_steps hh (Books.lists_head hx) (Books.lists_head hy) (by simpa using hne)

end Operations

/-! ## The calls of a step -/

section Steps

variable (Γ : Config) (env : Env) {s s' : State} {f : Nat} {k : Caller}

/-- A step calls nothing. -/
theorem ListOp.inOrder_nil (hlists : A' = A) : ListOp.InOrder A [] A' := ⟨A, .nil A, fun _ _ hxs => hlists ▸ hxs⟩

variable (queue) in
/-- What a mere acknowledgement leaves of the lists: all. -/
theorem Books.Acked.lists (ha : b.Acked f b') : b'.lists queue = b.lists queue ∧ b'.comp = b.comp := by
  rcases ha with rfl | ⟨-, rfl⟩
  · exact ⟨rfl, rfl⟩
  · exact ⟨rfl, rfl⟩

variable (queue) in
/-- The end of `fusecompress_open`. -/
theorem openFile_steps (hf : s.books.Usable f) (hnew : ∀ g, s.books.nextDesc ∉ s.books.head g) (full : Filename) (writable : Bool) :
    ListOp.Steps (s.books.lists queue) (openCalls f (openFile Γ env s f full writable).2)
        ((openFile Γ env s f full writable).1.books.lists queue) ∧
      (openFile Γ env s f full writable).1.comp = s.comp := by
  rcases books_openFile Γ env s f full writable with ⟨hbooks, hreply⟩ | ⟨hbooks, hreply⟩
  · have hcomp : (openFile Γ env s f full writable).1.comp = s.comp := congrArg Books.comp hbooks
    rw [hbooks, hreply]
    exact ⟨.nil _, hcomp⟩
  · have hcomp : (openFile Γ env s f full writable).1.comp = s.comp := congrArg Books.comp hbooks
    rw [hbooks, hreply]
    exact ⟨Books.openDesc_steps hf hnew, hcomp⟩

variable (queue) in
/-- The caller of `direct_open`, with the locked entry. -/
theorem callerBody_steps (hf : s.books.Usable f) (hnew : ∀ g, s.books.nextDesc ∉ s.books.head g) (k : Caller) :
    ListOp.Steps (s.books.lists queue) (callerCalls Γ env s f k) ((callerBody Γ env s f k).1.books.lists queue) ∧
      (callerBody Γ env s f k).1.comp = s.comp := by
  have hquiet : ∀ {t : State}, s.books.Acked f t.books → ListOp.Steps (s.books.lists queue) [] (t.books.lists queue) ∧ t.comp = s.comp := by
    intro t ha
    obtain ⟨hlists, hcomp⟩ := ha.lists queue
    rw [hlists]
    exact ⟨.nil _, hcomp⟩
  cases k with
  | getattr full st => exact hquiet (Or.inl (books_getattrLocked Γ env s f full st))
  | mknod full mode uid gid => exact hquiet (Or.inl (books_mknodLocked env s full mode uid gid))
  | unlink full => exact hquiet (Or.inl (books_unlinkLocked Γ env s f full))
  | utime full c => exact hquiet (Or.inl (books_utimeLocked Γ env s full c))
  | truncate full size => exact hquiet (acked_truncateLocked Γ env s f full size)
  | renameFrom src dst =>
    change ListOp.Steps _ _ ((countAccess s f).books.lists queue) ∧ _
    rw [books_countAccess]
    exact ⟨.nil _, rfl⟩
  | renameTo src dst a =>
    change ListOp.Steps _ _ ((countAccess s f).books.lists queue) ∧ _
    rw [books_countAccess]
    exact ⟨.nil _, rfl⟩
  | link src dst =>
    have hlink := acked_linkLocked Γ env s f
    rw [callerBody]
    split
    · rename_i s₁ e
      rw [e] at hlink
      exact hquiet hlink
    · rename_i s₁ e
      rw [e] at hlink
      exact hquiet hlink
  | «open» full writable =>
    have hundedup := books_openUndedup Γ env s f writable
    rw [callerBody, callerCalls, openBody]
    cases hr : openUndedup Γ env s f writable with
    | mk s₁ ok =>
      rw [hr] at hundedup
      have hbooks : s₁.books = s.books := hundedup
      cases ok with
      | false => exact hquiet (Or.inl hbooks)
      | true =>
        dsimp only
        split
        · have hlock : (s₁.lock f).books.lists queue = s.books.lists queue := by
            rw [books_lock, hbooks]
            exact Books.lists_same rfl rfl rfl rfl
          change ListOp.Steps _ _ ((s₁.lock f).books.lists queue) ∧ _
          rw [hlock]
          exact ⟨.nil _, congrArg Books.comp hbooks⟩
        · have hopen := openFile_steps queue Γ env (s := s₁) (f := f) (by rw [hbooks]; exact hf)
            (by rw [hbooks]; exact hnew) full writable
          rw [hbooks] at hopen
          exact ⟨hopen.1, hopen.2.trans (congrArg Books.comp hbooks)⟩

variable (queue) in
/-- The caller of `direct_open`, once the entry can be used. -/
theorem directOpenWait_steps (hf : s.books.Usable f) (hnew : ∀ g, s.books.nextDesc ∉ s.books.head g) (k : Caller) :
    ListOp.Steps (s.books.lists queue) (waitCalls Γ env s f k) ((directOpenWait Γ env s f k).1.books.lists queue) ∧
      (directOpenWait Γ env s f k).1.comp = s.comp := by
  unfold waitCalls directOpenWait
  split
  · have hbooks : (s.modFile f (fun file => { file with status := { file.status with cancel := true } })).books =
      s.books.setStatus f { s.books.status f with cancel := true } := books_setStatus s f _ _ (by simp) rfl
    rw [hbooks]
    exact ⟨.nil _, rfl⟩
  · exact callerBody_steps queue Γ env hf hnew k

variable (queue) in
/-- A new entry, and what the caller does with it. -/
theorem directOpenNew_steps (halive : s.books.freed s.nextFile = false) (hlisted : s.nextFile ∉ s.database)
    (hnew : ∀ g, s.books.nextDesc ∉ s.books.head g) (k : Caller) :
    ListOp.Steps (s.books.lists queue) (newCalls Γ env s k) ((directOpenNew Γ env s k).1.books.lists queue) ∧
      (directOpenNew Γ env s k).1.comp = s.comp := by
  have hbooks : (directOpenAdd Γ s k.filename).books = s.books.newFile k.filename := books_directOpenAdd Γ s k.filename
  have hadd : ListOp.Steps (s.books.lists queue) [.init (.head s.nextFile), .addTail (.file s.nextFile) .database]
      ((directOpenAdd Γ s k.filename).books.lists queue) := by
    rw [hbooks]
    exact Books.newFile_steps halive hlisted
  have hnew' : ∀ g, (directOpenAdd Γ s k.filename).books.nextDesc ∉ (directOpenAdd Γ s k.filename).books.head g := by
    intro g
    rw [hbooks]
    change s.books.nextDesc ∉ Function.update s.books.head s.books.nextFile [] g
    rcases eq_or_ne g s.books.nextFile with rfl | hne
    · rw [Function.update_self]
      exact List.not_mem_nil
    · rw [Function.update_of_ne hne]
      exact hnew g
  have husable : (directOpenAdd Γ s k.filename).books.Usable s.nextFile := by
    rw [hbooks]
    exact ⟨Nat.lt_succ_self _, halive⟩
  obtain ⟨hbody, hcomp⟩ := callerBody_steps queue Γ env husable hnew' k
  exact ⟨hadd.append hbody, hcomp⟩

/-- What a purge does with one entry. -/
theorem purgeFile_calls (hh : h.Holds (s.books.lists queue)) (hf : f ∈ s.database) {made : Nat} (hmade : ∀ i ∈ queue, i < made)
    (force : Bool) : ∃ queue', ListOp.InOrder (s.books.lists queue) (purgeCalls Γ env s force made f)
        ((purgeFile Γ env force s f).books.lists queue') ∧
      (queue' = queue ∧ (purgeFile Γ env force s f).comp.length = s.comp.length ∨
        queue' = queue ++ [made] ∧ (purgeFile Γ env force s f).comp.length = s.comp.length + 1) := by
  unfold purgeCalls
  dsimp only
  by_cases hunused : (s.files f).accesses = 0
  · rw [if_pos hunused]
    rcases books_purgeFile_unused Γ env s f force hunused with ⟨hwants, isDedup, hbooks⟩ | ⟨hwants, hbooks⟩
    · have hcomp := congrArg (fun b => b.comp.length) hbooks
      rw [if_pos hwants, hbooks]
      refine ⟨queue ++ [made], (Books.enqueue_steps fun hm => Nat.lt_irrefl _ (hmade _ hm)).inOrder, Or.inr ⟨rfl, ?_⟩⟩
      exact hcomp.trans (List.length_append ..)
    · have hcomp := congrArg Books.comp hbooks
      rw [if_neg (by rw [hwants]; exact Bool.false_ne_true), hbooks]
      exact ⟨queue, ⟨_, Books.detach_steps hh hf, Books.free_forgets⟩, Or.inl ⟨rfl, congrArg List.length hcomp⟩⟩
  · have hbooks := books_purgeFile_used Γ env s f force hunused
    rw [if_neg hunused]
    cases force with
    | true =>
      have hcomp := congrArg Books.comp hbooks
      rw [if_pos rfl] at hbooks hcomp ⊢
      rw [hbooks]
      exact ⟨queue, (Books.detach_steps hh hf).inOrder, Or.inl ⟨rfl, congrArg List.length hcomp⟩⟩
    | false =>
      have hcomp := congrArg Books.comp hbooks
      rw [if_neg Bool.false_ne_true] at hbooks hcomp ⊢
      rw [hbooks]
      exact ⟨queue, ListOp.inOrder_nil rfl, Or.inl ⟨rfl, congrArg List.length hcomp⟩⟩

/-- The places of a thread from which no step calls a function of `list.h`. -/
def Pc.silent : Pc → Bool
  | .opening _ => false
  | .purging [] k _ => k.isNone
  | .purging (_ :: _) _ _ => false
  | .waiting _ _ _ => false
  | .undeduped _ _ => false
  | .renameSecond _ _ _ _ => false
  | .fetched _ .release _ => false
  | _ => true

theorem clientCalls_silent {pc : Pc} (hpc : pc.silent = true) (made : Nat) : clientCalls Γ env s h made pc = [] := by
  cases pc with
  | opening k => cases hpc
  | purging todo k force =>
    cases todo with
    | nil =>
      cases k with
      | none => rfl
      | some k => cases hpc
    | cons f todo => cases hpc
  | waiting k f seen => cases hpc
  | undeduped full f => cases hpc
  | renameSecond src dst a b => cases hpc
  | fetched d op f =>
    cases op with
    | release => cases hpc
    | read size offset => rfl
    | write buf offset => rfl
  | _ => rfl

variable (queue) in
/-- A silent step leaves the lists as they are. -/
theorem ClientStep.lists {free : Bool} {wants : Nat → Prop} {pc pc' : Pc} (hs : ClientStep free wants b pc b' pc')
    (hpc : pc.silent = true) : b'.lists queue = b.lists queue ∧ b'.comp = b.comp := by
  cases hs with
  | quiet => exact ⟨rfl, rfl⟩
  | purgeStart => exact ⟨rfl, rfl⟩
  | purgeEnd => exact ⟨rfl, rfl⟩
  | renameLock => exact ⟨Books.lists_same rfl rfl rfl rfl, rfl⟩
  | locked _ _ ha _ => exact ha.lists queue
  | unlocked => exact ⟨rfl, rfl⟩
  | _ => cases hpc

/-- The calls of a step of a thread are in order. -/
theorem clientStep_calls {refs : Nat → Nat} {p : Option Purge} {free : Bool} {pc : Pc} {r : State × Pc}
    (hs : clientStep Γ env free s pc = some r) (hbalanced : s.books.Balanced refs) (hk : pc.Known s.books)
    (hfiled : s.books.Filed p) (hp : ∀ q, pc.purge = some q → p = some q) (hlt : ∀ f ∈ s.database, f < s.nextFile)
    (hdesc : ∀ d f, pc.desc = some (d, f) → s.books.live d = true ∧ s.books.owner d = f) (hh : h.Holds (s.books.lists queue)) {made : Nat}
    (hmade : ∀ i ∈ queue, i < made) :
    ∃ queue', ListOp.InOrder (s.books.lists queue) (clientCalls Γ env s h made pc) (r.1.books.lists queue') ∧
      (queue' = queue ∧ r.1.comp.length = s.comp.length ∨ queue' = queue ++ [made] ∧ r.1.comp.length = s.comp.length + 1) := by
  have hrefines : ClientStep free (wanted Γ env s) s.books pc r.1.books r.2 := clientStep_refines Γ env s hs
  have hnew : ∀ g, s.books.nextDesc ∉ s.books.head g := fun g hm =>
    Nat.lt_irrefl _ (hbalanced.live_lt _ ((hbalanced.mem_head g _).mp hm).1)
  have halive : s.books.freed s.nextFile = false := by
    by_contra hfreed
    rw [Bool.not_eq_false] at hfreed
    exact Nat.lt_irrefl _ (hfiled.freed _ hfreed).1
  have hlisted : s.nextFile ∉ s.database := fun hm => Nat.lt_irrefl _ (hlt _ hm)
  have hsame : ∀ {t : State} {ops : List (ListOp ListNode)},
      ListOp.Steps (s.books.lists queue) ops (t.books.lists queue) ∧ t.comp = s.comp →
      ∃ queue', ListOp.InOrder (s.books.lists queue) ops (t.books.lists queue') ∧
        (queue' = queue ∧ t.comp.length = s.comp.length ∨ queue' = queue ++ [made] ∧ t.comp.length = s.comp.length + 1) :=
    fun hsteps => ⟨queue, hsteps.1.inOrder, Or.inl ⟨rfl, congrArg List.length hsteps.2⟩⟩
  by_cases hpc : pc.silent = true
  · obtain ⟨hlists, hcomp⟩ := hrefines.lists queue hpc
    rw [clientCalls_silent Γ env hpc]
    refine hsame ⟨?_, hcomp⟩
    rw [hlists]
    exact .nil _
  cases pc with
  | opening k =>
    rw [clientStep] at hs
    split at hs
    · unfold directOpenStart at hs
      rw [clientCalls, startCalls]
      cases hfind : findFile s k.filename with
      | some f =>
        rw [hfind] at hs
        dsimp only at hs ⊢
        split at hs
        · rename_i hlock
          cases hs
          have hfound : (directOpenFound s f).books = s.books := books_directOpenFound s f
          have hf : s.books.Usable f := ⟨hlt f (List.mem_of_find?_eq_some hfind), (lockable_books s hlock).1⟩
          have hwait := directOpenWait_steps queue Γ env (s := directOpenFound s f) (f := f) (by rw [hfound]; exact hf)
            (by rw [hfound]; exact hnew) k
          rw [hfound] at hwait
          exact hsame hwait
        · cases hs
      | none =>
        rw [hfind] at hs
        dsimp only at hs ⊢
        split at hs
        · rename_i hmany
          cases hs
          rw [if_pos hmany]
          exact hsame ⟨.nil _, rfl⟩
        · rename_i hfew
          cases hs
          rw [if_neg hfew]
          exact hsame (directOpenNew_steps queue Γ env (s := { s with entries := s.entries + 1 }) halive hlisted hnew k)
    · cases hs
  | purging todo k force =>
    cases todo with
    | nil =>
      cases k with
      | none => exact absurd rfl hpc
      | some k =>
        rw [clientStep] at hs
        cases hs
        exact hsame (directOpenNew_steps queue Γ env halive hlisted hnew k)
    | cons f todo =>
      have hf : f ∈ s.database := (hfiled.todo _ (hp _ rfl)).2 f List.mem_cons_self
      rw [clientStep] at hs
      split at hs
      · cases hs
      split at hs
      · cases hs
      · cases hs
        exact purgeFile_calls Γ env hh hf hmade force
  | waiting k f seen =>
    rw [clientStep] at hs
    split at hs
    · rename_i hwoken
      cases hs
      exact hsame (directOpenWait_steps queue Γ env ⟨hk.2.1, (lockable_books s hwoken.2).1⟩ hnew k)
    · cases hs
  | undeduped full f =>
    rw [clientStep] at hs
    split at hs
    · rename_i hkept
      cases hs
      have hunlock : (s.unlock f).books = s.books.unlock f := books_unlock s f
      have hlists : (s.unlock f).books.lists queue = s.books.lists queue := by
        rw [hunlock]
        exact Books.lists_same rfl rfl rfl rfl
      have hopen := openFile_steps queue Γ env (s := s.unlock f) (f := f)
        (by rw [hunlock]; exact ⟨hk.1, (kept_books s hkept).1⟩) (by rw [hunlock]; exact hnew) full true
      rw [hlists] at hopen
      exact hsame hopen
    · cases hs
  | renameSecond src dst x y =>
    rw [clientStep] at hs
    split at hs
    · rename_i hlocks
      cases hs
      have hx : s.books.Usable x := ⟨hk.2.1.1, (kept_books s hlocks.1).1⟩
      have hy : s.books.Usable y := ⟨hk.2.2.1, (lockable_books s hlocks.2).1⟩
      have hxy : x ≠ y := by
        rintro rfl
        exact Bool.false_ne_true ((lockable_books s hlocks.2).2.symm.trans (kept_books s hlocks.1).2)
      have hunlock : (s.unlock x).books = s.books.unlock x := books_unlock s x
      have hok : (renameLocked Γ env (s.unlock x) x y).2 = .ok ↔
          (sysRename Γ env (s.unlock x).fs ((s.unlock x).files x).filename ((s.unlock x).files y).filename).2 = true :=
        renameLocked_ok Γ env (s.unlock x)
      rw [State.fs_unlock, State.filename_unlock, State.filename_unlock] at hok
      rw [clientCalls]
      rcases books_renameLocked Γ env (s.unlock x) hxy with ⟨hbooks, hreply⟩ | ⟨hbooks, hreply⟩
      · have hcomp := congrArg Books.comp hbooks
        rw [hunlock] at hbooks hcomp
        rw [if_neg (fun hrenamed => by rw [hok.mpr hrenamed] at hreply; cases hreply)]
        refine hsame ⟨?_, hcomp⟩
        change ListOp.Steps _ _ ((renameLocked Γ env (s.unlock x) x y).1.books.lists queue)
        rw [hbooks]
        exact .nil _
      · have hcomp := congrArg (fun b => b.comp.length) hbooks
        rw [hunlock] at hbooks hcomp
        have hvisited : h.listForEach (.head x) ((s.files x).head.length + 1) (h.next (.head x)) = some ((s.books.head x).map .desc) :=
          (hh.ring (.head x) _ (Books.lists_head hx)).listForEach (by rw [List.length_map]; exact Nat.lt_succ_self _)
        have hlists : (((s.books.unlock x).count x (-1)).count y (-1)).lists queue = s.books.lists queue :=
          Books.lists_same rfl rfl rfl rfl
        have hmoves := Books.rename_steps (b := ((s.books.unlock x).count x (-1)).count y (-1)) (hlists ▸ hh) hx hy hxy
        rw [hlists] at hmoves
        rw [if_pos (hok.mp hreply), renameCalls, hvisited, Option.getD_some]
        refine ⟨queue, ListOp.Steps.inOrder ?_, Or.inl ⟨rfl, hcomp.trans (List.length_map ..)⟩⟩
        change ListOp.Steps _ _ ((renameLocked Γ env (s.unlock x) x y).1.books.lists queue)
        rw [hbooks]
        exact hmoves
    · cases hs
  | fetched d op f =>
    cases op with
    | release =>
      rw [clientStep] at hs
      split at hs
      · rename_i hlock
        cases hs
        obtain ⟨hlive, howner⟩ := hdesc d f rfl
        have hm : d ∈ s.books.head (s.books.owner d) := (hbalanced.mem_head _ d).mpr ⟨hlive, rfl⟩
        have hused : s.books.owner d < s.books.nextFile := by
          by_contra hge
          rw [(hbalanced.fresh _ (Nat.le_of_not_lt hge)).1] at hm
          cases hm
        have hbooks : (releaseLocked Γ env s f d).1.books = s.books.release f d := books_releaseLocked Γ env s f d
        have hcomp := congrArg Books.comp hbooks
        refine hsame ⟨?_, hcomp⟩
        change ListOp.Steps _ _ ((releaseLocked Γ env s f d).1.books.lists queue)
        rw [hbooks]
        exact Books.release_steps hh ⟨hused, howner ▸ (lockable_books s hlock).1⟩ hm
      · cases hs
    | read size offset => exact absurd rfl hpc
    | write buf offset => exact absurd rfl hpc
  | _ => exact absurd rfl hpc

/-- The calls of a step of the background thread are in order. -/
theorem WorkerStep.calls {w w' : WorkerPc} (hs : WorkerStep b w b' w') (hh : h.Holds (b.lists queue))
    (hlength : queue.length = b.comp.length) :
    ∃ queue', ListOp.InOrder (b.lists queue) (workerCalls h w) (b'.lists queue') ∧ queue'.length = b'.comp.length ∧
      b'.comp.length ≤ b.comp.length ∧ ∀ i ∈ queue', i ∈ queue := by
  have hsame : ∀ {b₁ : Books}, b₁.head = b.head → b₁.database = b.database → b₁.nextFile = b.nextFile → b₁.freed = b.freed →
      b₁.comp = b.comp → ∃ queue', ListOp.InOrder (b.lists queue) [] (b₁.lists queue') ∧ queue'.length = b₁.comp.length ∧
        b₁.comp.length ≤ b.comp.length ∧ ∀ i ∈ queue', i ∈ queue := by
    intro b₁ hhead hdatabase hnext hfreed hcomp
    exact ⟨queue, ListOp.inOrder_nil (Books.lists_same hhead hdatabase hnext hfreed), by rw [hcomp, hlength], by rw [hcomp],
      fun _ => id⟩
  cases hs with
  | @dequeue entry rest hcomp =>
    rw [hcomp] at hlength
    obtain ⟨i, queue, rfl⟩ := List.exists_cons_of_length_eq_add_one hlength
    have hnext : h.next .comp = some (.entry i) := (hh.ring .comp _ rfl).next_head
    refine ⟨queue, ?_, Nat.succ.inj hlength, ?_, fun j hj => List.mem_cons_of_mem i hj⟩
    · rw [workerCalls, hnext]
      exact (Books.dequeue_steps hh).inOrder
    · rw [hcomp]
      exact Nat.le_succ _
  | _ => exact hsame rfl rfl rfl rfl rfl

end Steps

/-! ## The runs -/

/-- The memory after the mount. -/
theorem Links.mounted_holds (fs : Backing) : Links.mounted.Holds ((State.mounted fs).books.lists []) := by
  have hdatabase := (Links.holds_no_lists { next := fun _ => none, prev := fun _ => none }).initListHead (x := ListNode.database)
    ⟨rfl, fun _ hm => by cases hm⟩
  have hcomp := hdatabase.initListHead (x := .comp) ⟨rfl, fun head hm => by
    obtain ⟨xs, hxs, hm⟩ := Links.exists_of_mem_nodes hm
    rcases eq_or_ne head .database with rfl | hne
    · rw [Function.update_self] at hxs
      cases hxs
      cases hm
    · rw [Function.update_of_ne hne] at hxs
      cases hxs⟩
  have hlists : (State.mounted fs).books.lists [] =
      Function.update (Function.update (fun _ : ListNode => none) .database (some [])) .comp (some []) := by
    funext head
    cases head with
    | head f =>
      have hnone : ¬(f < (State.mounted fs).nextFile ∧ (State.mounted fs).freed f = false) := fun hlt => Nat.not_lt_zero f hlt.1
      rw [Books.lists]
      exact if_neg hnone
    | _ => rfl
  rw [hlists]
  exact hcomp

/-- The loops and the tests find what the lists of the books are. -/
theorem Links.Holds.found {s : State} (hh : h.Holds (s.books.lists queue)) (hlength : queue.length = s.comp.length) :
    s.FoundIn h queue where
  database turns ht := (hh.ring .database _ rfl).listForEach (by rw [List.length_map]; exact ht)
  descs f hlt halive turns ht :=
    (hh.ring (.head f) _ (Books.lists_head ⟨hlt, halive⟩)).listForEach (by rw [List.length_map]; exact ht)
  numbered := hlength
  queue turns ht := (hh.ring .comp _ rfl).listForEach (by rw [List.length_map, hlength]; exact ht)
  empty := by
    rw [(hh.ring .comp _ rfl).listEmpty, List.map_eq_nil_iff, ← List.length_eq_zero_iff, hlength, List.length_eq_zero_iff]

section Runs

variable {Γ : Config} {T : Type} [Fintype T] [DecidableEq T] {m m' : LinkedSys T}

/-- The memory holds the lists of the books, and the queue entries are among those that have been allocated. -/
structure LinkedSys.Kept (m : LinkedSys T) (h : Links ListNode) (queue : List Nat) : Prop where
  filed : m.sys.Filed
  links : m.links = some h
  holds : h.Holds (m.sys.shared.books.lists queue)
  length : queue.length = m.sys.shared.comp.length
  made : ∀ i ∈ queue, i < m.made

/-- The calls of a step of the program are in order. -/
theorem LinkedSys.Kept.calls (hm : m.Kept h queue) {l : Label T} {sys : Sys T} (hs : m.sys.step Γ l = some sys) :
    ∃ queue', ListOp.InOrder (m.sys.shared.books.lists queue) (m.sys.listCalls Γ h m.made l) (sys.shared.books.lists queue') ∧
      queue'.length = sys.shared.comp.length ∧ ∀ i ∈ queue', i < m.made + (sys.shared.comp.length - m.sys.shared.comp.length) := by
  have hquiet : ∃ queue', ListOp.InOrder (m.sys.shared.books.lists queue) [] (m.sys.shared.books.lists queue') ∧
      queue'.length = m.sys.shared.comp.length ∧
        ∀ i ∈ queue', i < m.made + (m.sys.shared.comp.length - m.sys.shared.comp.length) :=
    ⟨queue, ListOp.inOrder_nil rfl, hm.length, fun i hi => Nat.lt_add_right _ (hm.made i hi)⟩
  rcases Sys.step_cases hs with ⟨t, r, last, rfl, -, rfl⟩ | ⟨t, env, s, pc, rfl, hc, -, rfl⟩ | ⟨env, s, w, rfl, -, hw, rfl⟩ |
    ⟨rfl, rfl⟩
  · exact hquiet
  · obtain ⟨queue', hcalls, hqueue⟩ := clientStep_calls Γ env hc hm.filed.counted.balanced (hm.filed.counted.known t) hm.filed.filed
      (fun q hq => Sys.purge_of_clients hm.filed.locked hq) hm.filed.counted.listed_lt
      (fun d f hd => hm.filed.counted.desc t d f hd) hm.holds hm.made
    have hlength := hm.length
    refine ⟨queue', hcalls, ?_⟩
    rcases hqueue with ⟨rfl, hcomp⟩ | ⟨rfl, hcomp⟩
    · have hcomp : s.comp.length = m.sys.shared.comp.length := hcomp
      exact ⟨hlength.trans hcomp.symm, fun i hi => Nat.lt_add_right _ (hm.made i hi)⟩
    · have hcomp : s.comp.length = m.sys.shared.comp.length + 1 := hcomp
      refine ⟨(List.length_append ..).trans ((congrArg (· + 1) hlength).trans hcomp.symm), fun i hi => ?_⟩
      change i < m.made + (s.comp.length - m.sys.shared.comp.length)
      rcases List.mem_append.mp hi with hi | hi
      · exact Nat.lt_add_right _ (hm.made i hi)
      · rw [List.mem_singleton.mp hi]
        omega
  · obtain ⟨queue', hcalls, hlength, -, hold⟩ := hw.calls hm.holds hm.length
    exact ⟨queue', hcalls, hlength, fun i hi => Nat.lt_add_right _ (hm.made i (hold i hi))⟩
  · exact hquiet

/-- A step keeps the memory in order. -/
theorem LinkedSys.Kept.step (hm : m.Kept h queue) {l : Label T} (hok : m.sys.Promised l ∧ m.sys.Unmoved Γ l)
    (hs : m.step Γ l = some m') : ∃ h' queue', m'.Kept h' queue' := by
  obtain ⟨sys, hstep, rfl⟩ := Option.map_eq_some_iff.mp hs
  obtain ⟨queue', hcalls, hlength, hmade⟩ := hm.calls hstep
  obtain ⟨h', hexec, hh'⟩ := hcalls.holds hm.holds
  exact ⟨h', queue', hm.filed.step hok hstep, by rw [hm.links]; exact hexec, hh', hlength, hmade⟩

omit [Fintype T] in
/-- The memory keeps no step of the program from being taken. -/
theorem LinkedSys.exists_run {ok : Sys T → Label T → Prop} {sys₀ sys : Sys T} {ls : List (Label T)}
    (hrun : Run (Sys.step Γ) ok sys₀ ls sys) {m₀ : LinkedSys T} (h₀ : m₀.sys = sys₀) :
    ∃ m, Run (LinkedSys.step Γ) (fun m l => ok m.sys l) m₀ ls m ∧ m.sys = sys := by
  induction hrun generalizing m₀ with
  | nil s => exact ⟨m₀, .nil m₀, h₀⟩
  | @cons s s' sys l ls hok hstep _ ih =>
    subst h₀
    obtain ⟨m₁, hlinked, h₁⟩ : ∃ m₁, m₀.step Γ l = some m₁ ∧ m₁.sys = s' := by
      unfold LinkedSys.step
      rw [hstep]
      exact ⟨_, rfl, rfl⟩
    obtain ⟨m, hm, hsys⟩ := ih h₁
    exact ⟨m, .cons hok hlinked hm, hsys⟩

/-- In every run no call of `list.h` follows a NULL pointer, the loops find in the memory the entries of the database, the descriptors of
each entry and the queue, as the program counts on, and the calls of the next step, whichever it is, are proper: a node that is added is
on no list, one that is taken off is on one, and no list of an entry that has been freed is touched. -/
theorem lists_in_order {fs : Backing} {ls : List (Label T)}
    (hrun : Run (LinkedSys.step Γ) (fun m l => m.sys.Promised l ∧ m.sys.Unmoved Γ l) (LinkedSys.mounted fs) ls m) :
    ∃ h queue, m.links = some h ∧ m.sys.shared.FoundIn h queue ∧ ∀ l sys, m.sys.step Γ l = some sys →
      ∃ queue', ListOp.InOrder (m.sys.shared.books.lists queue) (m.sys.listCalls Γ h m.made l) (sys.shared.books.lists queue') := by
  obtain ⟨h, queue, hm⟩ := hrun.invariant (I := fun m => ∃ h queue, m.Kept h queue)
    (fun m l m' ⟨h, queue, hm⟩ hok hs => hm.step hok hs)
    ⟨Links.mounted, [], Sys.filed_mounted fs, rfl, Links.mounted_holds fs, rfl, fun i hi => by cases hi⟩
  refine ⟨h, queue, hm.links, hm.holds.found hm.length, fun l sys hs => ?_⟩
  obtain ⟨queue', hcalls, -, -⟩ := hm.calls hs
  exact ⟨queue', hcalls⟩

end Runs

/-- A file is made and opened twice, and renamed: the loop of `direct_rename` moves both descriptors. -/
theorem lists_in_order_openRename : ∃ m : LinkedSys (Fin 1), m.sys.shared.database = [0, 1] ∧ (m.sys.shared.files 1).head = [0, 1] ∧
    ∃ h queue, m.links = some h ∧ m.sys.shared.FoundIn h queue ∧ ∀ l sys, m.sys.step .plain l = some sys →
      ∃ queue', ListOp.InOrder (m.sys.shared.books.lists queue) (m.sys.listCalls .plain h m.made l)
        (sys.shared.books.lists queue') := by
  obtain ⟨m, hrun, hlast⟩ := Run.exists_of_executeIf (show (executeIf (LinkedSys.step .plain)
    (fun m l => m.sys.Promised l ∧ m.sys.Unmoved .plain l) (LinkedSys.mounted .empty)
    [.request 0 (.mknod ['a'] 0o100644 0 0), .client (0 : Fin 1) .fine, .request 0 (.open ['a'] true), .client 0 .fine,
      .request 0 (.open ['a'] false), .client 0 .fine, .request 0 (.rename ['a'] ['b']), .client 0 .fine, .client 0 .fine,
      .client 0 .fine, .client 0 .fine]).any (fun m => m.sys.shared.database = [0, 1] ∧ (m.sys.shared.files 1).head = [0, 1]) = true by
      decide +kernel)
  rw [decide_eq_true_eq] at hlast
  exact ⟨m, hlast.1, hlast.2, lists_in_order hrun⟩

end FuseCompress
