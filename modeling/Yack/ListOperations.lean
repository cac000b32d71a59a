import Yack.IntrusiveList
import Yack.ListSurgery

/-!
# The circular lists of `utils/include/list.h`

Every operation is a few stores to the links of the nodes it is given and of
their neighbours. What a run of them is for is a shape: which nodes are heads of
which lists, and which are in none. Each operation is a step between shapes with
its conditions of use, and the stores keep the links those of the shape.
-/
namespace Yack.ListOperations
open ByteMemory IntrusiveList ListSurgery

def initListHead (m : Memory Addr) (list : Addr) : Memory Addr :=
  let m := m.storeWord list list
  m.storeWord (list + 4) list

def listAdd (m : Memory Addr) (new head : Addr) : Memory Addr :=
  listAddBetween m new head (listNext m head)

/-- `__list_del_entry`. -/
def listDelEntry (m : Memory Addr) (entry : Addr) : Memory Addr :=
  listDelBetween m (listPrev m entry) (listNext m entry)

def listReplace (m : Memory Addr) (old new : Addr) : Memory Addr :=
  let m := m.storeWord new (listNext m old)
  let m := m.storeWord (listNext m new + 4) new
  let m := m.storeWord (new + 4) (listPrev m old)
  m.storeWord (listPrev m new) new

def listReplaceInit (m : Memory Addr) (old new : Addr) : Memory Addr :=
  initListHead (listReplace m old new) old

def listSwap (m : Memory Addr) (entry1 entry2 : Addr) : Memory Addr :=
  let pos := listPrev m entry2
  let m := listDel m entry2
  let m := listReplace m entry1 entry2
  listAdd m entry1 (if pos = entry1 then entry2 else pos)

def listDelInit (m : Memory Addr) (entry : Addr) : Memory Addr :=
  initListHead (listDelEntry m entry) entry

def listMove (m : Memory Addr) (list head : Addr) : Memory Addr :=
  listAdd (listDelEntry m list) list head

def listMoveTail (m : Memory Addr) (list head : Addr) : Memory Addr :=
  listAddTail (listDelEntry m list) list head

def listBulkMoveTail (m : Memory Addr) (head first last : Addr) : Memory Addr :=
  let m := m.storeWord (listPrev m first) (listNext m last)
  let m := m.storeWord (listNext m last + 4) (listPrev m first)
  let m := m.storeWord (listPrev m head) first
  let m := m.storeWord (first + 4) (listPrev m head)
  let m := m.storeWord last head
  m.storeWord (head + 4) last

def listEmpty (m : Memory Addr) (head : Addr) : Bool := listNext m head == head

def listIsSingular (m : Memory Addr) (head : Addr) : Bool :=
  !listEmpty m head && listNext m head == listPrev m head

def listRotateLeft (m : Memory Addr) (head : Addr) : Memory Addr :=
  if listEmpty m head then m else listMoveTail m (listNext m head) head

def listRotateToFront (m : Memory Addr) (list head : Addr) : Memory Addr :=
  listMoveTail m head list

/-- `__list_cut_position`. -/
def listCutAfter (m : Memory Addr) (list head entry : Addr) : Memory Addr :=
  let newFirst := listNext m entry
  let m := m.storeWord list (listNext m head)
  let m := m.storeWord (listNext m list + 4) list
  let m := m.storeWord (list + 4) entry
  let m := m.storeWord entry list
  let m := m.storeWord head newFirst
  m.storeWord (newFirst + 4) head

def listCutPosition (m : Memory Addr) (list head entry : Addr) : Memory Addr :=
  if listEmpty m head then m
  else if listIsSingular m head && entry != head && entry != listNext m head then m
  else if entry = head then initListHead m list
  else listCutAfter m list head entry

def listCutBefore (m : Memory Addr) (list head entry : Addr) : Memory Addr :=
  if listNext m head = entry then initListHead m list
  else
    let m := m.storeWord list (listNext m head)
    let m := m.storeWord (listNext m list + 4) list
    let m := m.storeWord (list + 4) (listPrev m entry)
    let m := m.storeWord (listPrev m list) list
    let m := m.storeWord head entry
    m.storeWord (entry + 4) head

/-- `__list_splice`. -/
def listSpliceBetween (m : Memory Addr) (list prev next : Addr) : Memory Addr :=
  let first := listNext m list
  let last := listPrev m list
  let m := m.storeWord (first + 4) prev
  let m := m.storeWord prev first
  let m := m.storeWord last next
  m.storeWord (next + 4) last

def listSplice (m : Memory Addr) (list head : Addr) : Memory Addr :=
  if listEmpty m list then m else listSpliceBetween m list head (listNext m head)

def listSpliceTail (m : Memory Addr) (list head : Addr) : Memory Addr :=
  if listEmpty m list then m else listSpliceBetween m list (listPrev m head) head

def listSpliceInit (m : Memory Addr) (list head : Addr) : Memory Addr :=
  if listEmpty m list then m
  else initListHead (listSpliceBetween m list head (listNext m head)) list

def listSpliceTailInit (m : Memory Addr) (list head : Addr) : Memory Addr :=
  if listEmpty m list then m
  else initListHead (listSpliceBetween m list (listPrev m head) head) list

inductive Operation where
  | initListHead (list : Addr)
  | listAdd (new head : Addr)
  | listAddTail (new head : Addr)
  | listDelEntry (entry : Addr)
  | listDel (entry : Addr)
  | listDelInit (entry : Addr)
  | listReplace (old new : Addr)
  | listReplaceInit (old new : Addr)
  | listSwap (entry1 entry2 : Addr)
  | listMove (list head : Addr)
  | listMoveTail (list head : Addr)
  | listBulkMoveTail (head first last : Addr)
  | listRotateLeft (head : Addr)
  | listRotateToFront (list head : Addr)
  | listCutPosition (list head entry : Addr)
  | listCutBefore (list head entry : Addr)
  | listSplice (list head : Addr)
  | listSpliceTail (list head : Addr)
  | listSpliceInit (list head : Addr)
  | listSpliceTailInit (list head : Addr)
  deriving DecidableEq, Repr

def Operation.run (m : Memory Addr) : Operation → Memory Addr
  | .initListHead list => ListOperations.initListHead m list
  | .listAdd new head => ListOperations.listAdd m new head
  | .listAddTail new head => IntrusiveList.listAddTail m new head
  | .listDelEntry entry => ListOperations.listDelEntry m entry
  | .listDel entry => IntrusiveList.listDel m entry
  | .listDelInit entry => ListOperations.listDelInit m entry
  | .listReplace old new => ListOperations.listReplace m old new
  | .listReplaceInit old new => ListOperations.listReplaceInit m old new
  | .listSwap entry1 entry2 => ListOperations.listSwap m entry1 entry2
  | .listMove list head => ListOperations.listMove m list head
  | .listMoveTail list head => ListOperations.listMoveTail m list head
  | .listBulkMoveTail head first last => ListOperations.listBulkMoveTail m head first last
  | .listRotateLeft head => ListOperations.listRotateLeft m head
  | .listRotateToFront list head => ListOperations.listRotateToFront m list head
  | .listCutPosition list head entry => ListOperations.listCutPosition m list head entry
  | .listCutBefore list head entry => ListOperations.listCutBefore m list head entry
  | .listSplice list head => ListOperations.listSplice m list head
  | .listSpliceTail list head => ListOperations.listSpliceTail m list head
  | .listSpliceInit list head => ListOperations.listSpliceInit m list head
  | .listSpliceTailInit list head => ListOperations.listSpliceTailInit m list head

/-- `list_for_each`: the positions it visits, given enough turns. -/
def listForEach (m : Memory Addr) (head : Addr) : ℕ → Addr → Option (List Addr)
  | 0, _ => none
  | fuel + 1, pos =>
      if pos = head then some []
      else (listForEach m head fuel (listNext m pos)).map (pos :: ·)

def listForEachPrev (m : Memory Addr) (head : Addr) : ℕ → Addr → Option (List Addr)
  | 0, _ => none
  | fuel + 1, pos =>
      if pos = head then some []
      else (listForEachPrev m head fuel (listPrev m pos)).map (pos :: ·)

def listIsFirst (m : Memory Addr) (list head : Addr) : Bool := listPrev m list == head

def listIsLast (m : Memory Addr) (list head : Addr) : Bool := listNext m list == head

/-- One operation on a shape, where it may be used. The node before a place in a
list is `a.getLastD h` and the one after it `b.headD h`: the head where the list
ends there. -/
inductive Step : Shape Addr → Operation → Shape Addr → Prop where
  | initListHead {x l} : Step (.row [x] :: l) (.initListHead x) (.ring x [] :: l)
  | listAdd {n h a b l} : Step (.row [n] :: .ring h (a ++ b) :: l) (.listAdd n (a.getLastD h))
      (.ring h (a ++ n :: b) :: l)
  | listAddTail {n h a b l} : Step (.row [n] :: .ring h (a ++ b) :: l)
      (.listAddTail n (b.headD h)) (.ring h (a ++ n :: b) :: l)
  | listDelEntry {e h a b l} : Step (.ring h (a ++ e :: b) :: l) (.listDelEntry e)
      (.row [e] :: .ring h (a ++ b) :: l)
  | listDel {e l l'} : Step l (.listDelEntry e) (.row [e] :: l') →
      Step l (.listDel e) (.row [e] :: l')
  | listDelInit {e l l'} : Step l (.listDelEntry e) (.row [e] :: l') →
      Step l (.listDelInit e) (.ring e [] :: l')
  | listReplace {old new h a b l} :
      Step (.row [new] :: .ring h (a ++ old :: b) :: l) (.listReplace old new)
        (.row [old] :: .ring h (a ++ new :: b) :: l)
  | listReplaceHead {old new ns l} :
      Step (.row [new] :: .ring old ns :: l) (.listReplace old new)
        (.row [old] :: .ring new ns :: l)
  | listReplaceInit {old new l l'} : Step l (.listReplace old new) (.row [old] :: l') →
      Step l (.listReplaceInit old new) (.ring old [] :: l')
  | listSwap {x y h a b c l} : Step (.ring h (a ++ x :: b ++ y :: c) :: l) (.listSwap x y)
      (.ring h (a ++ y :: b ++ x :: c) :: l)
  | listSwapBack {x y h a b c l} : Step (.ring h (a ++ y :: b ++ x :: c) :: l) (.listSwap x y)
      (.ring h (a ++ x :: b ++ y :: c) :: l)
  | listSwapApart {x y h k a b c d l} :
      Step (.ring h (a ++ x :: b) :: .ring k (c ++ y :: d) :: l) (.listSwap x y)
        (.ring h (a ++ y :: b) :: .ring k (c ++ x :: d) :: l)
  | listMove {e p l l' l''} : Step l (.listDelEntry e) l' → Step l' (.listAdd e p) l'' →
      Step l (.listMove e p) l''
  | listMoveTail {e q l l' l''} : Step l (.listDelEntry e) l' → Step l' (.listAddTail e q) l'' →
      Step l (.listMoveTail e q) l''
  | listBulkMoveTail {h n a s b l} : Step (.ring h (a ++ n :: s ++ b) :: l)
      (.listBulkMoveTail h n (s.getLastD n)) (.ring h (a ++ b ++ n :: s) :: l)
  | listRotateLeft {h x b l} : Step (.ring h (x :: b) :: l) (.listRotateLeft h)
      (.ring h (b ++ [x]) :: l)
  | listRotateLeftEmpty {h l} : Step (.ring h [] :: l) (.listRotateLeft h) (.ring h [] :: l)
  | listRotateToFront {h x a b l} : Step (.ring h (a ++ x :: b) :: l) (.listRotateToFront x h)
      (.ring h (x :: b ++ a) :: l)
  | listCutPosition {k h a b l} : a ++ b ≠ [] →
      Step (.row [k] :: .ring h (a ++ b) :: l) (.listCutPosition k h (a.getLastD h))
        (.ring k a :: .ring h b :: l)
  | listCutPositionEmpty {k h e l} : Step (.ring h [] :: l) (.listCutPosition k h e)
      (.ring h [] :: l)
  | listCutBefore {k h a b l} :
      Step (.row [k] :: .ring h (a ++ b) :: l) (.listCutBefore k h (b.headD h))
        (.ring k a :: .ring h b :: l)
  | listSplice {k h n s a b l} :
      Step (.ring k (n :: s) :: .ring h (a ++ b) :: l) (.listSplice k (a.getLastD h))
        (.row [k] :: .ring h (a ++ n :: s ++ b) :: l)
  | listSpliceTail {k h n s a b l} :
      Step (.ring k (n :: s) :: .ring h (a ++ b) :: l) (.listSpliceTail k (b.headD h))
        (.row [k] :: .ring h (a ++ n :: s ++ b) :: l)
  | listSpliceEmpty {k p l} : Step (.ring k [] :: l) (.listSplice k p) (.ring k [] :: l)
  | listSpliceTailEmpty {k q l} : Step (.ring k [] :: l) (.listSpliceTail k q) (.ring k [] :: l)
  | listSpliceInit {k p n s l l'} :
      Step (.ring k (n :: s) :: l) (.listSplice k p) (.row [k] :: l') →
        Step (.ring k (n :: s) :: l) (.listSpliceInit k p) (.ring k [] :: l')
  | listSpliceInitEmpty {k p l} : Step (.ring k [] :: l) (.listSpliceInit k p) (.ring k [] :: l)
  | listSpliceTailInit {k q n s l l'} :
      Step (.ring k (n :: s) :: l) (.listSpliceTail k q) (.row [k] :: l') →
        Step (.ring k (n :: s) :: l) (.listSpliceTailInit k q) (.ring k [] :: l')
  | listSpliceTailInitEmpty {k q l} : Step (.ring k [] :: l) (.listSpliceTailInit k q)
      (.ring k [] :: l)
  /-- The head of an empty list may be used as a node in no list. -/
  | reuse {x op l l'} : Step (.row [x] :: l) op l' → Step (.ring x [] :: l) op l'
  | perm {op l₁ l₂ l₃ l₄} : l₁.Perm l₂ → Step l₂ op l₃ → l₃.Perm l₄ → Step l₁ op l₄

inductive Steps : Shape Addr → List Operation → Shape Addr → Prop where
  | nil {l} : Steps l [] l
  | cons {l op l' ops l''} : Step l op l' → Steps l' ops l'' → Steps l (op :: ops) l''

def links (m : Memory Addr) : Links Addr := ⟨listNext m, listPrev m⟩

/-- The links of `nodes` are those of the shape. -/
structure Stored (nodes : List Addr) (m : Memory Addr) (l : Shape Addr) : Prop where
  shows : Shows (links m) l
  within : ∀ x ∈ l.nodes, x ∈ nodes

/-- After some stores to links of `nodes`, these are `f`. -/
structure Written (nodes : List Addr) (m : Memory Addr) (f : Links Addr) (m' : Memory Addr) :
    Prop where
  agree : ∀ x ∈ nodes, listNext m' x = f.next x ∧ listPrev m' x = f.prev x
  frame : m.Frame m' (LinkBytes nodes)

section Written
variable {nodes : List Addr} {m m' : Memory Addr} {f : Links Addr} {l l' : Shape Addr}
  {h k n x y : Addr} {a b s ns : List Addr}

theorem Written.refl (nodes : List Addr) (m : Memory Addr) : Written nodes m (links m) m :=
  ⟨fun _ _ => ⟨rfl, rfl⟩, Memory.Frame.refl m _⟩

theorem Written.setNext (hw : Written nodes m f m') (hs : Spaced nodes) (hy : y ∈ nodes)
    (v : Addr) : Written nodes m (f.setNext y v) (m'.storeWord y v) := by
  refine ⟨fun x hx => ?_, hw.frame.trans (frame_store_next hy v)⟩
  obtain ⟨hnext, hprev⟩ := hs.store_next (m := m') hx hy v
  obtain ⟨hnext', hprev'⟩ := hw.agree x hx
  rw [hnext, hprev, hnext', hprev']
  exact ⟨(Function.update_apply f.next y v x).symm, rfl⟩

theorem Written.setPrev (hw : Written nodes m f m') (hs : Spaced nodes) (hy : y ∈ nodes)
    (v : Addr) : Written nodes m (f.setPrev y v) (m'.storeWord (y + 4) v) := by
  refine ⟨fun x hx => ?_, hw.frame.trans (frame_store_prev hy v)⟩
  obtain ⟨hprev, hnext⟩ := hs.store_prev (m := m') hx hy v
  obtain ⟨hnext', hprev'⟩ := hw.agree x hx
  rw [hnext, hprev, hnext', hprev']
  exact ⟨rfl, (Function.update_apply f.prev y v x).symm⟩

/-- What one operation establishes. -/
def Becomes (nodes : List Addr) (m m' : Memory Addr) (l : Shape Addr) : Prop :=
  Stored nodes m' l ∧ m.Frame m' (LinkBytes nodes)

theorem Written.becomes (hw : Written nodes m f m') (hf : Shows f l)
    (hwithin : ∀ x ∈ l.nodes, x ∈ nodes) : Becomes nodes m m' l :=
  ⟨⟨hf.congr fun x hx => hw.agree x (hwithin x hx), hwithin⟩, hw.frame⟩

theorem Becomes.trans {m'' : Memory Addr} (h₁ : Becomes nodes m m' l)
    (h₂ : Becomes nodes m' m'' l') : Becomes nodes m m'' l' :=
  ⟨h₂.1, h₁.2.trans h₂.2⟩

theorem Stored.perm (h : Stored nodes m l) (hl : l.Perm l') : Stored nodes m l' :=
  ⟨h.shows.perm hl, fun x hx => h.within x ((hl.flatMap_right _).mem_iff.mpr hx)⟩

theorem Becomes.perm (h : Becomes nodes m m' l) (hl : l.Perm l') : Becomes nodes m m' l' :=
  ⟨h.1.perm hl, h.2⟩

theorem Stored.last (hm : Stored nodes m (.ring h (a ++ b) :: l)) : a.getLastD h ∈ nodes := by
  refine hm.within _ ?_
  have hp := getLastD_mem h a
  simp only [nodes_cons, Piece.nodes, List.mem_append, List.mem_cons] at hp ⊢
  tauto

theorem Stored.first (hm : Stored nodes m (.ring h (a ++ b) :: l)) : b.headD h ∈ nodes := by
  refine hm.within _ ?_
  have hq := headD_mem b h
  simp only [nodes_cons, Piece.nodes, List.mem_append, List.mem_cons, List.not_mem_nil,
    or_false] at hq ⊢
  tauto

theorem Stored.next_last (hm : Stored nodes m (.ring h (a ++ b) :: l)) :
    listNext m (a.getLastD h) = b.headD h :=
  hm.shows.linked.1

theorem Stored.prev_first (hm : Stored nodes m (.ring h (a ++ b) :: l)) :
    listPrev m (b.headD h) = a.getLastD h :=
  hm.shows.linked.2

end Written

section Stores
variable {nodes : List Addr} {m m' : Memory Addr} {f : Links Addr} {l l' : Shape Addr}
  {h k n e x y : Addr} {a b c d s ns : List Addr}

theorem Stored.initialized (hm : Stored nodes m (.row [x] :: l)) (hs : Spaced nodes) :
    Becomes nodes m (initListHead m x) (.ring x [] :: l) := by
  have hx : x ∈ nodes := hm.within x (by simp [nodes_cons, Piece.nodes])
  have hw := ((Written.refl nodes m).setNext hs hx x).setPrev hs hx x
  exact hw.becomes hm.shows.init hm.within

/-- `__list_add` at a place in a list. -/
theorem Stored.addedBetween (hm : Stored nodes m (.row [n] :: .ring h (a ++ b) :: l))
    (hs : Spaced nodes) : Becomes nodes m (listAddBetween m n (a.getLastD h) (b.headD h))
      (.ring h (a ++ n :: b) :: l) := by
  have hring := hm.perm (.swap ..)
  have hn : n ∈ nodes := hm.within n (by simp [nodes_cons, Piece.nodes])
  have hw := ((((Written.refl nodes m).setPrev hs hring.first n).setNext hs hn (b.headD h)).setPrev
    hs hn (a.getLastD h)).setNext hs hring.last n
  have hpaste := hring.shows.paste
  rw [List.getLastD_nil, List.append_assoc, List.cons_append, List.nil_append] at hpaste
  refine hw.becomes hpaste fun x hx => hm.within x ?_
  simp only [nodes_cons, Piece.nodes, List.mem_append, List.mem_cons] at hx ⊢
  tauto

theorem Stored.added (hm : Stored nodes m (.row [n] :: .ring h (a ++ b) :: l))
    (hs : Spaced nodes) :
    Becomes nodes m (listAdd m n (a.getLastD h)) (.ring h (a ++ n :: b) :: l) := by
  rw [listAdd, (hm.perm (.swap ..)).next_last]
  exact hm.addedBetween hs

theorem Stored.addedTail (hm : Stored nodes m (.row [n] :: .ring h (a ++ b) :: l))
    (hs : Spaced nodes) :
    Becomes nodes m (listAddTail m n (b.headD h)) (.ring h (a ++ n :: b) :: l) := by
  rw [listAddTail, (hm.perm (.swap ..)).prev_first]
  exact hm.addedBetween hs

/-- The nodes around an entry. -/
theorem Stored.around (hm : Stored nodes m (.ring h (a ++ e :: b) :: l)) :
    listPrev m e = a.getLastD h ∧ listNext m e = b.headD h := by
  have hsplit : a ++ e :: b = (a ++ [e]) ++ b := by simp
  have hnext := hm
  rw [hsplit] at hnext
  have hlast := hnext.next_last
  rw [List.getLastD_concat] at hlast
  exact ⟨hm.prev_first, hlast⟩

theorem Stored.unlinked (hm : Stored nodes m (.ring h (a ++ e :: b) :: l))
    (hs : Spaced nodes) :
    Becomes nodes m (listDelEntry m e) (.row [e] :: .ring h (a ++ b) :: l) := by
  obtain ⟨hprev, hnext⟩ := hm.around
  have hsplit : a ++ e :: b = a ++ [e] ++ b := by simp
  have hcut : Shows ((links m).link (a.getLastD h) (b.headD h))
      (.ring h (a ++ b) :: .row [e] :: l) := by
    have h' := hm.shows
    rw [hsplit] at h'
    exact h'.cut
  have hlast := hm.last
  have hfirst : b.headD h ∈ nodes := by
    rw [hsplit] at hm
    exact hm.first
  rw [listDelEntry, hprev, hnext]
  have hw := ((Written.refl nodes m).setPrev hs hfirst (a.getLastD h)).setNext hs hlast (b.headD h)
  refine hw.becomes (hcut.perm (.swap ..)) fun x hx => hm.within x ?_
  simp only [nodes_cons, Piece.nodes, List.mem_append, List.mem_cons] at hx ⊢
  tauto

/-- The links of a node in no list can be overwritten. -/
theorem Stored.clear (hm : Stored nodes m (.row [e] :: l)) (hs : Spaced nodes) (v w : Addr) :
    Becomes nodes m ((m.storeWord e v).storeWord (e + 4) w) (.row [e] :: l) := by
  have he : e ∈ nodes := hm.within e (by simp [nodes_cons, Piece.nodes])
  have hw := ((Written.refl nodes m).setNext hs he v).setPrev hs he w
  refine hw.becomes (hm.shows.clear fun y hy => ?_) hm.within
  simp [links, Links.setNext, Links.setPrev, hy]

/-- The new node has its neighbours before the old one's links are read again. -/
theorem Stored.replaced (hm : Stored nodes m (.row [n] :: .ring h (a ++ e :: b) :: l))
    (hs : Spaced nodes) :
    Becomes nodes m (listReplace m e n) (.row [e] :: .ring h (a ++ n :: b) :: l) := by
  have hring := hm.perm (.swap ..)
  obtain ⟨hprev, hnext⟩ := hring.around
  have hsplit : a ++ e :: b = a ++ [e] ++ b := by simp
  have hn : n ∈ nodes := hm.within n (by simp [nodes_cons, Piece.nodes])
  have hlast := hring.last
  have hreplace := hring.shows
  have hfirst : b.headD h ∈ nodes := by
    rw [hsplit] at hring
    exact hring.first
  rw [hsplit] at hreplace
  have hreplace := hreplace.replace
  rw [List.getLastD_nil, List.append_assoc, List.cons_append, List.nil_append] at hreplace
  have hne : e ≠ b.headD h := hring.shows.entry_ne.2
  -- the two stores forward, and what the two back then read
  let f := (links m).link n (b.headD h)
  let m₁ := (m.storeWord n (b.headD h)).storeWord (b.headD h + 4) n
  have hw₁ : Written nodes m f m₁ :=
    ((Written.refl nodes m).setNext hs hn (b.headD h)).setPrev hs hfirst n
  have he : e ∈ nodes := hring.within e (by simp [nodes_cons, Piece.nodes])
  have hread : listPrev m₁ e = a.getLastD h := by
    rw [(hw₁.agree e he).2, ← hprev]
    exact Function.update_of_ne hne _ _
  have hw₂ := hw₁.setPrev hs hn (a.getLastD h)
  have hback : listPrev (m₁.storeWord (n + 4) (a.getLastD h)) n = a.getLastD h := by
    rw [(hw₂.agree n hn).2]
    exact Function.update_self _ _ _
  have hw := hw₂.setNext hs hlast n
  have hrun : listReplace m e n =
      (m₁.storeWord (n + 4) (a.getLastD h)).storeWord (a.getLastD h) n := by
    have hown : listNext (m.storeWord n (b.headD h)) n = b.headD h :=
      m.loadWord_storeWord n (b.headD h)
    simp only [listReplace, hnext, hown]
    change (m₁.storeWord (n + 4) (listPrev m₁ e)).storeWord
      (listPrev (m₁.storeWord (n + 4) (listPrev m₁ e)) n) n = _
    rw [hread, hback]
  rw [hrun]
  refine hw.becomes (hreplace.perm (.swap ..)) fun x hx => hm.within x ?_
  simp only [nodes_cons, Piece.nodes, List.mem_append, List.mem_cons] at hx ⊢
  tauto

/-- Any shape is that of its lists entered anywhere. -/
theorem Stored.rotate (hm : Stored nodes m (.ring h (a ++ x :: b) :: l)) :
    Stored nodes m (.ring x (b ++ h :: a) :: l) := by
  refine ⟨hm.shows.rotate, fun y hy => hm.within y ?_⟩
  simp only [nodes_cons, Piece.nodes, List.mem_append, List.mem_cons] at hy ⊢
  tauto

theorem Becomes.rotate (hm : Becomes nodes m m' (.ring h (a ++ x :: b) :: l)) :
    Becomes nodes m m' (.ring x (b ++ h :: a) :: l) :=
  ⟨hm.1.rotate, hm.2⟩

/-- An empty list is overwritten: its head is left with stale links, and the new
one with links to itself. -/
theorem Stored.replacedEmpty (hm : Stored nodes m (.row [n] :: .ring e [] :: l))
    (hs : Spaced nodes) : Becomes nodes m (listReplace m e n) (.row [e] :: .ring n [] :: l) := by
  have hring := hm.perm (.swap ..)
  have hn : n ∈ nodes := hm.within n (by simp [nodes_cons, Piece.nodes])
  have he : e ∈ nodes := hring.within e (by simp [nodes_cons, Piece.nodes])
  have hne : n ≠ e := by
    have hout := (shows_row_singleton.mp hm.shows).2
    simp only [nodes_cons, Piece.nodes, List.mem_append, List.mem_cons, not_or] at hout
    exact hout.1.1
  have hnext : listNext m e = e := hring.shows.linked (a := []) (b := []).1
  have hw := ((((Written.refl nodes m).setNext hs hn e).setPrev hs he n).setPrev hs hn n).setNext
    hs hn n
  have hrun : listReplace m e n =
      (((m.storeWord n e).storeWord (e + 4) n).storeWord (n + 4) n).storeWord n n := by
    have hown : listNext (m.storeWord n e) n = e := m.loadWord_storeWord n e
    have hback : listPrev ((m.storeWord n e).storeWord (e + 4) n) e = n :=
      (m.storeWord n e).loadWord_storeWord (e + 4) n
    have hself : listPrev (((m.storeWord n e).storeWord (e + 4) n).storeWord (n + 4) n) n = n :=
      Memory.loadWord_storeWord _ (n + 4) n
    simp only [listReplace, hnext, hown, hback, hself]
  have hrows : Shows (links m) (.row [n] :: .row [e] :: l) :=
    shows_row_nil.mp (hring.shows.unhead.perm (.trans (.swap ..) (.cons _ (.swap ..))))
  have hinit := hrows.init.perm (.swap ..)
  rw [hrun]
  refine hw.becomes (hinit.clear fun y hy => ?_) fun x hx => hm.within x ?_
  · by_cases hyn : y = n
    · subst y
      simp [Links.link, Links.setNext, Links.setPrev]
    · simp [Links.link, Links.setNext, Links.setPrev, hy, hyn]
  · simp only [nodes_cons, Piece.nodes, List.mem_append, List.mem_cons] at hx ⊢
    tauto

theorem Stored.replacedHead (hm : Stored nodes m (.row [n] :: .ring e ns :: l))
    (hs : Spaced nodes) : Becomes nodes m (listReplace m e n) (.row [e] :: .ring n ns :: l) := by
  cases ns with
  | nil => exact hm.replacedEmpty hs
  | cons x ns =>
      have hring : Stored nodes m (.ring x (ns ++ [e]) :: .row [n] :: l) :=
        Stored.rotate (a := []) (hm.perm (.swap ..))
      have hreplaced := ((hring.perm (.swap ..)).replaced hs).perm (.swap ..)
      exact (Becomes.rotate hreplaced).perm (.swap ..)

/-- The run is cut out first, and then pasted before the head. -/
theorem Stored.bulkMoved (hm : Stored nodes m (.ring h (a ++ n :: s ++ b) :: l))
    (hs : Spaced nodes) : Becomes nodes m (listBulkMoveTail m h n (s.getLastD n))
      (.ring h (a ++ b ++ n :: s) :: l) := by
  have hafter : Stored nodes m (.ring h (a ++ (n :: s ++ b)) :: l) := by
    rwa [List.append_assoc] at hm
  have hprev : listPrev m n = a.getLastD h := hafter.prev_first
  have hnext : listNext m (s.getLastD n) = b.headD h := by
    rw [← getLastD_append_cons h n a s]
    exact hm.next_last
  have hcut := hm.shows.cut
  have hp : a.getLastD h ∈ nodes := hafter.last
  have hn : n ∈ nodes := hm.within n (by simp [nodes_cons, Piece.nodes])
  have hk : s.getLastD n ∈ nodes := by
    rw [← getLastD_append_cons h n a s]
    exact hm.last
  have hh : h ∈ nodes := hm.within h (by simp [nodes_cons, Piece.nodes])
  -- the run is out of the list
  have hw₁ := (Written.refl nodes m).setNext hs hp (b.headD h)
  generalize hm₁ : m.storeWord (a.getLastD h) (b.headD h) = m₁ at hw₁
  have hkp : s.getLastD n ≠ a.getLastD h := by
    have hmem := List.mem_append_left b (getLastD_mem h a)
    exact (hcut.ne (by simpa using hmem) (getLastD_mem n s)).symm
  have hnext₁ : listNext m₁ (s.getLastD n) = b.headD h := by
    rw [(hw₁.agree _ hk).1, ← hnext]
    exact Function.update_of_ne hkp _ _
  have hprev₁ : listPrev m₁ n = a.getLastD h := (hw₁.agree n hn).2.trans hprev
  have hw₂ := hw₁.setPrev hs hm.first (a.getLastD h)
  generalize hm₂ : m₁.storeWord (b.headD h + 4) (a.getLastD h) = m₂ at hw₂
  have hout : Becomes nodes m m₂ (.ring h (a ++ b) :: .row (n :: s) :: l) := by
    refine hw₂.becomes hcut fun x hx => hm.within x ?_
    simp only [nodes_cons, Piece.nodes, List.mem_append, List.mem_cons] at hx ⊢
    tauto
  have hsplit : Stored nodes m₂ (.ring h (a ++ b ++ []) :: .row (n :: s) :: l) := by
    rw [List.append_nil]
    exact hout.1
  have hlast : listPrev m₂ h = (a ++ b).getLastD h := hsplit.prev_first
  -- and goes in again before the head
  have hw₃ := (Written.refl nodes m₂).setNext hs hsplit.last n
  generalize hm₃ : m₂.storeWord ((a ++ b).getLastD h) n = m₃ at hw₃
  have hlast₃ : listPrev m₃ h = (a ++ b).getLastD h := (hw₃.agree h hh).2.trans hlast
  have hw₆ := ((hw₃.setPrev hs hn ((a ++ b).getLastD h)).setNext hs hk h).setPrev hs hh
    (s.getLastD n)
  have hne : s.getLastD n ≠ (a ++ b).getLastD h :=
    (hout.1.shows.ne (getLastD_mem h (a ++ b)) (getLastD_mem n s)).symm
  have hne' : h ≠ n := hout.1.shows.ne (List.mem_cons_self ..) (List.mem_cons_self ..)
  have hpaste := hsplit.shows.paste
  rw [List.headD_nil, link_comm _ hne hne', List.append_nil] at hpaste
  have hrun : listBulkMoveTail m h n (s.getLastD n) =
      ((m₃.storeWord (n + 4) ((a ++ b).getLastD h)).storeWord (s.getLastD n) h).storeWord (h + 4)
        (s.getLastD n) := by
    simp only [listBulkMoveTail, hprev, hnext, hm₁, hnext₁, hprev₁, hm₂, hlast, hm₃, hlast₃]
  rw [hrun]
  refine hout.trans (hw₆.becomes hpaste fun x hx => hm.within x ?_)
  simp only [nodes_cons, Piece.nodes, List.mem_append, List.mem_cons] at hx ⊢
  tauto

/-- The stores of both ways to cut a list in two. -/
theorem Stored.cutStores (hm : Stored nodes m (.row [k] :: .ring h (n :: s ++ b) :: l))
    (hs : Spaced nodes) :
    Becomes nodes m ((((((m.storeWord k n).storeWord (n + 4) k).storeWord (k + 4)
      (s.getLastD n)).storeWord (s.getLastD n) k).storeWord h (b.headD h)).storeWord
        (b.headD h + 4) h) (.ring k (n :: s) :: .ring h b :: l) := by
  have hring := hm.perm (.swap ..)
  have hn : n ∈ nodes := hring.within n (by simp [nodes_cons, Piece.nodes])
  have hk : k ∈ nodes := hm.within k (by simp [nodes_cons, Piece.nodes])
  have hh : h ∈ nodes := hring.within h (by simp [nodes_cons, Piece.nodes])
  have hend : s.getLastD n ∈ nodes := by
    have hlast := hring.last
    rwa [List.getLastD_cons] at hlast
  have hw := ((((((Written.refl nodes m).setNext hs hk n).setPrev hs hn k).setPrev hs hk
    (s.getLastD n)).setNext hs hend k).setNext hs hh (b.headD h)).setPrev hs hring.first h
  have hcut : Shows ((links m).link h (b.headD h))
      (.ring h b :: .row (n :: s) :: .row [k] :: l) := Shows.cut (a := []) hring.shows
  have hclose := (hcut.perm (.trans (.trans (.cons _ (.swap ..)) (.swap ..))
    (.cons _ (.swap ..)))).close
  -- the links in the order in which they are stored
  have hrow : ∀ x ∈ h :: b, ∀ y ∈ n :: s, x ≠ y := fun x hx y hy => hcut.ne hx hy
  have hnode : ∀ x ∈ h :: (n :: s ++ b), x ≠ k := fun x hx =>
    hring.shows.ne hx (List.mem_singleton_self k)
  have hmem := getLastD_mem n s
  have hq : b.headD h ∈ h :: b := by
    have hq := headD_mem b h
    simpa [or_comm] using hq
  have hkh : h ≠ k := hnode h (List.mem_cons_self ..)
  have hkn : k ≠ n := (hnode n (by simp)).symm
  have hke : s.getLastD n ≠ k := hnode _ (by simp at hmem ⊢; tauto)
  have hkq : b.headD h ≠ k := hnode _ (by simp at hq ⊢; tauto)
  rw [link_comm _ hke hkn, link_comm _ hkh (hrow _ hq n (List.mem_cons_self ..)),
    link_comm _ (hrow h (List.mem_cons_self ..) _ hmem) hkq] at hclose
  refine hw.becomes hclose fun x hx => hm.within x ?_
  simp only [nodes_cons, Piece.nodes, List.mem_append, List.mem_cons] at hx ⊢
  tauto

/-- The head is none of its entries. -/
theorem Stored.head_ne (hm : Stored nodes m (.ring h ns :: l)) (hx : x ∈ ns) : h ≠ x := by
  have hnodup : (h :: ns).Nodup := (List.nodup_append.mp hm.shows.nodup).1
  exact fun heq => (List.nodup_cons.mp hnodup).1 (heq ▸ hx)

theorem Stored.empty (hm : Stored nodes m (.ring h ns :: l)) : listEmpty m h = ns.isEmpty := by
  have hnext : listNext m h = ns.headD h := (hm.shows.linked (a := [])).1
  rw [listEmpty, hnext]
  cases ns with
  | nil => simp
  | cons n s => simpa using (hm.head_ne (List.mem_cons_self ..)).symm

theorem Stored.prev_head (hm : Stored nodes m (.ring h ns :: l)) :
    listPrev m h = ns.getLastD h :=
  (Shows.linked (b := []) ((List.append_nil ns).symm ▸ hm.shows)).2

theorem Stored.singular (hm : Stored nodes m (.ring h ns :: l)) :
    listIsSingular m h = (ns.length == 1) := by
  have hnext : listNext m h = ns.headD h := (hm.shows.linked (a := [])).1
  rw [listIsSingular, hm.empty, hnext, hm.prev_head]
  match ns with
  | [] => simp
  | [n] => simp
  | n :: x :: s =>
      have hnodup : (n :: x :: s).Nodup :=
        (List.nodup_cons.mp (List.nodup_append.mp hm.shows.nodup).1).2
      have hne : n ≠ s.getLastD x := fun heq =>
        (List.nodup_cons.mp hnodup).1 (heq ▸ getLastD_mem x s)
      have hlast : (n :: x :: s).getLastD h = s.getLastD x := by
        rw [List.getLastD_cons, List.getLastD_cons]
      rw [hlast]
      simpa using hne

/-- Up to and including an entry; the head itself stands for none. -/
theorem Stored.cutPosition (hm : Stored nodes m (.row [k] :: .ring h (a ++ b) :: l))
    (hs : Spaced nodes) (hne : a ++ b ≠ []) :
    Becomes nodes m (listCutPosition m k h (a.getLastD h)) (.ring k a :: .ring h b :: l) := by
  have hring := hm.perm (.swap ..)
  have hempty : listEmpty m h = false := by
    rw [hring.empty, List.isEmpty_eq_false_iff]
    exact hne
  rw [listCutPosition, hempty, hring.singular]
  cases a with
  | nil => simpa using hm.initialized hs
  | cons n s =>
      have hnext : listNext m h = n := (hring.shows.linked (a := [])).1
      have hlast : listNext m (s.getLastD n) = b.headD h := by
        have hlast := hring.next_last
        rwa [List.getLastD_cons] at hlast
      have hguard : ¬ ((n :: s ++ b).length == 1 && s.getLastD n != h && s.getLastD n != n) := by
        intro hguard
        simp only [Bool.and_eq_true, beq_iff_eq, bne_iff_ne, List.length_append,
          List.length_cons] at hguard
        obtain rfl : s = [] := List.eq_nil_of_length_eq_zero (by omega)
        exact hguard.2 rfl
      have hhead : s.getLastD n ≠ h := by
        refine (hring.head_ne ?_).symm
        exact List.mem_append_left _ (getLastD_mem n s)
      have hown : listNext (m.storeWord k n) k = n := m.loadWord_storeWord k n
      rw [List.getLastD_cons, hnext, if_neg Bool.false_ne_true, if_neg hguard, if_neg hhead]
      simp only [listCutAfter, hlast, hnext, hown]
      exact hm.cutStores hs

/-- Up to an entry, or all of it before the head. -/
theorem Stored.cutBefore (hm : Stored nodes m (.row [k] :: .ring h (a ++ b) :: l))
    (hs : Spaced nodes) :
    Becomes nodes m (listCutBefore m k h (b.headD h)) (.ring k a :: .ring h b :: l) := by
  have hring := hm.perm (.swap ..)
  rw [listCutBefore]
  cases a with
  | nil =>
      have hnext : listNext m h = b.headD h := (hring.shows.linked (a := [])).1
      rw [if_pos hnext]
      exact hm.initialized hs
  | cons n s =>
      have hnext : listNext m h = n := (hring.shows.linked (a := [])).1
      have hprev : listPrev m (b.headD h) = s.getLastD n := by
        have hprev := hring.prev_first
        rwa [List.getLastD_cons] at hprev
      have hcut : Shows ((links m).link h (b.headD h))
          (.ring h b :: .row (n :: s) :: .row [k] :: l) := Shows.cut (a := []) hring.shows
      have hq : b.headD h ∈ h :: b := by
        have hq := headD_mem b h
        simpa [or_comm] using hq
      have hne : b.headD h ≠ n := hcut.ne hq (List.mem_cons_self ..)
      -- the entry's link back is read after two stores elsewhere
      have hn : n ∈ nodes := hring.within n (by simp [nodes_cons, Piece.nodes])
      have hk : k ∈ nodes := hm.within k (by simp [nodes_cons, Piece.nodes])
      have hw := ((Written.refl nodes m).setNext hs hk n).setPrev hs hn k
      have hread : listPrev ((m.storeWord k n).storeWord (n + 4) k) (b.headD h) =
          s.getLastD n := by
        rw [(hw.agree _ hring.first).2, ← hprev]
        exact Function.update_of_ne hne _ _
      have hown : listNext (m.storeWord k n) k = n := m.loadWord_storeWord k n
      have hback : listPrev (((m.storeWord k n).storeWord (n + 4) k).storeWord (k + 4)
          (s.getLastD n)) k = s.getLastD n := Memory.loadWord_storeWord _ (k + 4) _
      rw [if_neg (hnext ▸ hne.symm)]
      simp only [hnext, hown, hread, hback]
      exact hm.cutStores hs

/-- `__list_splice` of a nonempty list at a place in another. -/
theorem Stored.spliced (hm : Stored nodes m (.ring k (n :: s) :: .ring h (a ++ b) :: l))
    (hs : Spaced nodes) : Becomes nodes m (listSpliceBetween m k (a.getLastD h) (b.headD h))
      (.row [k] :: .ring h (a ++ n :: s ++ b) :: l) := by
  have hring := hm.perm (.swap ..)
  have hfirst : listNext m k = n := (hm.shows.linked (a := [])).1
  have hlast : listPrev m k = s.getLastD n := by
    have hprev := (Shows.linked (b := []) ((List.append_nil (n :: s)).symm ▸ hm.shows)).2
    rwa [List.getLastD_cons] at hprev
  have hn : n ∈ nodes := hm.within n (by simp [nodes_cons, Piece.nodes])
  have hmem := getLastD_mem n s
  have hend : s.getLastD n ∈ nodes := hm.within _ (by
    simp only [nodes_cons, Piece.nodes, List.mem_append, List.mem_cons] at hmem ⊢
    tauto)
  have hw := ((((Written.refl nodes m).setPrev hs hn (a.getLastD h)).setNext hs hring.last
    n).setNext hs hend (b.headD h)).setPrev hs hring.first (s.getLastD n)
  have hopen := hm.shows.unhead.perm (.trans (.cons _ (.swap ..)) (.swap ..))
  have hopen := hopen.perm (.cons _ (.swap ..))
  have hapart : ∀ x ∈ h :: (a ++ b), ∀ y ∈ n :: s, x ≠ y := fun x hx y hy => hopen.ne hx hy
  have hpaste := hopen.paste
  have hp := getLastD_mem h a
  have hq := headD_mem b h
  rw [link_comm _ (hapart _ (by simp at hp ⊢; tauto) _ hmem).symm
    (hapart _ (by simp at hq ⊢; tauto) n (List.mem_cons_self ..))] at hpaste
  simp only [listSpliceBetween, hfirst, hlast]
  refine hw.becomes (hpaste.perm (.swap ..)) fun x hx => hm.within x ?_
  simp only [nodes_cons, Piece.nodes, List.mem_append, List.mem_cons] at hx ⊢
  tauto

theorem Stored.deleted (hm : Stored nodes m (.ring h (a ++ e :: b) :: l)) (hs : Spaced nodes) :
    Becomes nodes m (listDel m e) (.row [e] :: .ring h (a ++ b) :: l) := by
  have hout := hm.unlinked hs
  exact hout.trans (hout.1.clear hs 0 0)

theorem Stored.movedTail (hm : Stored nodes m (.ring h (a ++ x :: b) :: l)) (hs : Spaced nodes) :
    Becomes nodes m (listMoveTail m x h) (.ring h (a ++ b ++ [x]) :: l) := by
  have hout := hm.unlinked hs
  have hlast : Stored nodes (listDelEntry m x) (.row [x] :: .ring h (a ++ b ++ []) :: l) := by
    rw [List.append_nil]
    exact hout.1
  exact hout.trans (hlast.addedTail hs)

theorem Stored.rotatedLeft (hm : Stored nodes m (.ring h (x :: b) :: l)) (hs : Spaced nodes) :
    Becomes nodes m (listRotateLeft m h) (.ring h (b ++ [x]) :: l) := by
  have hnext : listNext m h = x := (hm.shows.linked (a := [])).1
  rw [listRotateLeft, hm.empty, hnext]
  exact Stored.movedTail (a := []) hm hs

/-- It is the head that moves. -/
theorem Stored.rotatedToFront (hm : Stored nodes m (.ring h (a ++ x :: b) :: l))
    (hs : Spaced nodes) :
    Becomes nodes m (listRotateToFront m x h) (.ring h (x :: b ++ a) :: l) := by
  have hmoved := hm.rotate.movedTail hs
  exact Becomes.rotate hmoved

/-- The second node takes the place of the first, which goes back in where the
second one was. -/
theorem Stored.swapped (hm : Stored nodes m (.ring h (a ++ x :: b ++ y :: c) :: l))
    (hs : Spaced nodes) :
    Becomes nodes m (listSwap m x y) (.ring h (a ++ y :: b ++ x :: c) :: l) := by
  have hpos : listPrev m y = b.getLastD x := by
    rw [← getLastD_append_cons h x a b]
    exact hm.prev_first
  have hout := hm.deleted hs
  have hin := hout.1
  rw [List.append_assoc, List.cons_append] at hin
  have hreplaced := hin.replaced hs
  have hplace : Stored nodes (listReplace (listDel m y) x y)
      (.row [x] :: .ring h (a ++ y :: b ++ c) :: l) := by
    rw [List.append_assoc]
    exact hreplaced.1
  have hadded := hplace.added hs
  rw [getLastD_append_cons] at hadded
  have hnext : (if b.getLastD x = x then y else b.getLastD x) = b.getLastD y := by
    cases b with
    | nil => simp
    | cons z b =>
        have hafter : Stored nodes m (.ring h (a ++ x :: (z :: b ++ y :: c)) :: l) := by
          rwa [List.append_assoc] at hm
        have hne : b.getLastD z ≠ x := fun heq =>
          hafter.shows.entry_once.2 (heq ▸ List.mem_append_left _ (getLastD_mem z b))
        rw [List.getLastD_cons, List.getLastD_cons, if_neg hne]
  rw [listSwap, hpos]
  simp only [hnext]
  exact hout.trans (hreplaced.trans hadded)

theorem Stored.swappedBack (hm : Stored nodes m (.ring h (a ++ y :: b ++ x :: c) :: l))
    (hs : Spaced nodes) :
    Becomes nodes m (listSwap m x y) (.ring h (a ++ x :: b ++ y :: c) :: l) := by
  have hafter : Stored nodes m (.ring h (a ++ y :: (b ++ x :: c)) :: l) := by
    rwa [List.append_assoc] at hm
  have hpos : listPrev m y = a.getLastD h := hafter.prev_first
  have hne : a.getLastD h ≠ x := fun heq =>
    hm.shows.entry_once.1 (heq ▸ List.mem_append_left (y :: b) (getLastD_mem h a))
  have hout := hafter.deleted hs
  have hin := hout.1
  rw [← List.append_assoc] at hin
  have hreplaced := hin.replaced hs
  have hplace := hreplaced.1
  rw [List.append_assoc] at hplace
  have hadded := hplace.added hs
  rw [listSwap, hpos, if_neg hne, List.append_assoc]
  exact hout.trans (hreplaced.trans hadded)

theorem Stored.swappedApart
    (hm : Stored nodes m (.ring h (a ++ x :: b) :: .ring k (c ++ y :: d) :: l))
    (hs : Spaced nodes) : Becomes nodes m (listSwap m x y)
      (.ring h (a ++ y :: b) :: .ring k (c ++ x :: d) :: l) := by
  have hsecond := hm.perm (.swap ..)
  have hpos : listPrev m y = c.getLastD k := hsecond.prev_first
  have hne : c.getLastD k ≠ x := by
    have hdisj := (List.nodup_append.mp hsecond.shows.nodup).2.2
    refine hdisj _ (List.mem_append_left (y :: d) (getLastD_mem k c)) x ?_
    simp [Piece.nodes]
  have hout := hsecond.deleted hs
  have hreplaced := (hout.1.perm (.cons _ (.swap ..))).replaced hs
  have hadded := (hreplaced.1.perm (.cons _ (.swap ..))).added hs
  rw [listSwap, hpos, if_neg hne]
  exact (hout.trans (hreplaced.trans hadded)).perm (.swap ..)

end Stores

section Runs
variable {nodes : List Addr} {m m' : Memory Addr} {l l' : Shape Addr} {h x : Addr}
  {a b ns : List Addr} {op : Operation} {ops : List Operation}

/-- A step lemma, with one case for each way an operation may be used. -/
theorem step_becomes (hstep : Step l op l') (hs : Spaced nodes) (hm : Stored nodes m l) :
    Becomes nodes m (op.run m) l' := by
  induction hstep generalizing m with
  | initListHead => exact hm.initialized hs
  | listAdd => exact hm.added hs
  | listAddTail => exact hm.addedTail hs
  | listDelEntry => exact hm.unlinked hs
  | listDel _ ih =>
      have hout := ih hm
      exact hout.trans (hout.1.clear hs 0 0)
  | listDelInit _ ih =>
      have hout := ih hm
      exact hout.trans (hout.1.initialized hs)
  | listReplace => exact hm.replaced hs
  | listReplaceHead => exact hm.replacedHead hs
  | listReplaceInit _ ih =>
      have hout := ih hm
      exact hout.trans (hout.1.initialized hs)
  | listSwap => exact hm.swapped hs
  | listSwapBack => exact hm.swappedBack hs
  | listSwapApart => exact hm.swappedApart hs
  | listMove _ _ ihout ihin =>
      have hout := ihout hm
      exact hout.trans (ihin hout.1)
  | listMoveTail _ _ ihout ihin =>
      have hout := ihout hm
      exact hout.trans (ihin hout.1)
  | listBulkMoveTail => exact hm.bulkMoved hs
  | listRotateLeft => exact hm.rotatedLeft hs
  | listRotateLeftEmpty =>
      rw [Operation.run, listRotateLeft, hm.empty]
      exact ⟨hm, Memory.Frame.refl m _⟩
  | listRotateToFront => exact hm.rotatedToFront hs
  | listCutPosition hne => exact hm.cutPosition hs hne
  | listCutPositionEmpty =>
      rw [Operation.run, listCutPosition, hm.empty]
      exact ⟨hm, Memory.Frame.refl m _⟩
  | listCutBefore => exact hm.cutBefore hs
  | listSplice =>
      rw [Operation.run, listSplice, hm.empty, (hm.perm (.swap ..)).next_last]
      exact hm.spliced hs
  | listSpliceTail =>
      rw [Operation.run, listSpliceTail, hm.empty, (hm.perm (.swap ..)).prev_first]
      exact hm.spliced hs
  | listSpliceEmpty =>
      rw [Operation.run, listSplice, hm.empty]
      exact ⟨hm, Memory.Frame.refl m _⟩
  | listSpliceTailEmpty =>
      rw [Operation.run, listSpliceTail, hm.empty]
      exact ⟨hm, Memory.Frame.refl m _⟩
  | listSpliceInit _ ih =>
      have hout := ih hm
      rw [Operation.run, listSplice, hm.empty] at hout
      rw [Operation.run, listSpliceInit, hm.empty]
      exact hout.trans (hout.1.initialized hs)
  | listSpliceInitEmpty =>
      rw [Operation.run, listSpliceInit, hm.empty]
      exact ⟨hm, Memory.Frame.refl m _⟩
  | listSpliceTailInit _ ih =>
      have hout := ih hm
      rw [Operation.run, listSpliceTail, hm.empty] at hout
      rw [Operation.run, listSpliceTailInit, hm.empty]
      exact hout.trans (hout.1.initialized hs)
  | listSpliceTailInitEmpty =>
      rw [Operation.run, listSpliceTailInit, hm.empty]
      exact ⟨hm, Memory.Frame.refl m _⟩
  | reuse _ ih => exact ih ⟨shows_row_nil.mp (hm.shows.unhead.perm (.swap ..)), hm.within⟩
  | perm hin _ hout ih => exact (ih (hm.perm hin)).perm hout

theorem steps_become (hsteps : Steps l ops l') (hs : Spaced nodes) (hm : Stored nodes m l) :
    Becomes nodes m (ops.foldl Operation.run m) l' := by
  induction hsteps generalizing m with
  | nil => exact ⟨hm, Memory.Frame.refl m _⟩
  | cons hstep _ ih =>
      have hfirst := step_becomes hstep hs hm
      exact hfirst.trans (ih hfirst.1)

/-- The loop from any place in the list. -/
theorem Stored.forEach_from (hm : Stored nodes m (.ring h (a ++ b) :: l)) {fuel : ℕ}
    (hfuel : b.length < fuel) : listForEach m h fuel (b.headD h) = some b := by
  induction b generalizing a fuel with
  | nil =>
      obtain ⟨fuel, rfl⟩ : ∃ n, fuel = n + 1 := ⟨fuel - 1, by omega⟩
      rw [List.headD_nil, listForEach, if_pos rfl]
  | cons x b ih =>
      rw [List.length_cons] at hfuel
      obtain ⟨fuel, rfl⟩ : ∃ n, fuel = n + 1 := ⟨fuel - 1, by omega⟩
      have hne : x ≠ h := (hm.head_ne (by simp)).symm
      have hrest : Stored nodes m (.ring h (a ++ [x] ++ b) :: l) := by simpa using hm
      rw [List.headD_cons, listForEach, if_neg hne, hm.around.2, ih hrest (by omega),
        Option.map_some]

theorem Stored.forEachPrev_from (hm : Stored nodes m (.ring h (a ++ b) :: l)) {fuel : ℕ}
    (hfuel : a.length < fuel) : listForEachPrev m h fuel (a.getLastD h) = some a.reverse := by
  induction a using List.reverseRecOn generalizing b fuel with
  | nil =>
      obtain ⟨fuel, rfl⟩ : ∃ n, fuel = n + 1 := ⟨fuel - 1, by omega⟩
      rw [List.getLastD_nil, listForEachPrev, if_pos rfl, List.reverse_nil]
  | append_singleton a x ih =>
      rw [List.length_append, List.length_singleton] at hfuel
      obtain ⟨fuel, rfl⟩ : ∃ n, fuel = n + 1 := ⟨fuel - 1, by omega⟩
      have hne : x ≠ h := (hm.head_ne (by simp)).symm
      have hrest : Stored nodes m (.ring h (a ++ x :: b) :: l) := by simpa using hm
      rw [List.getLastD_concat, listForEachPrev, if_neg hne, hrest.around.1,
        ih hrest (by omega), Option.map_some, List.reverse_append, List.reverse_singleton,
        List.singleton_append]

/-- What the header's loops and tests say about a list. -/
structure Reads (m : Memory Addr) (head : Addr) (entries : List Addr) : Prop where
  forEach : ∀ fuel, entries.length < fuel →
    listForEach m head fuel (listNext m head) = some entries
  forEachPrev : ∀ fuel, entries.length < fuel →
    listForEachPrev m head fuel (listPrev m head) = some entries.reverse
  empty : listEmpty m head = entries.isEmpty
  singular : listIsSingular m head = (entries.length == 1)
  isFirst : ∀ x ∈ entries, listIsFirst m x head = (entries.head? == some x)
  isLast : ∀ x ∈ entries, listIsLast m x head = (entries.getLast? == some x)

theorem Stored.reads (hm : Stored nodes m (.ring h ns :: l)) : Reads m h ns := by
  have hnext : listNext m h = ns.headD h := (hm.shows.linked (a := [])).1
  refine ⟨fun fuel hfuel => ?_, fun fuel hfuel => ?_, hm.empty, hm.singular, ?_, ?_⟩
  · rw [hnext]
    exact Stored.forEach_from (a := []) hm hfuel
  · rw [hm.prev_head]
    have hall : Stored nodes m (.ring h (ns ++ []) :: l) := by rwa [List.append_nil]
    exact hall.forEachPrev_from hfuel
  · intro x hx
    obtain ⟨a, b, rfl⟩ := List.append_of_mem hx
    rw [listIsFirst, hm.around.1]
    cases a with
    | nil => simp
    | cons y a =>
        have hhead : (y :: a).getLastD h ≠ h := by
          rw [List.getLastD_cons]
          exact (hm.head_ne (List.mem_append_left _ (getLastD_mem y a))).symm
        have hne : y ≠ x := fun heq => hm.shows.entry_once.1 (by simp [heq])
        rw [beq_eq_false_iff_ne.mpr hhead]
        simpa using hne
  · intro x hx
    obtain ⟨a, b, rfl⟩ := List.append_of_mem hx
    rw [listIsLast, hm.around.2]
    cases b with
    | nil => simp
    | cons y b =>
        have hhead : (y :: b).headD h ≠ h := (hm.head_ne (by simp)).symm
        have hne : b.getLastD y ≠ x := fun heq =>
          hm.shows.entry_once.2 (heq ▸ getLastD_mem y b)
        have hlast : (a ++ x :: y :: b).getLast? = some (b.getLastD y) := by
          simp [List.getLast?_cons]
        rw [beq_eq_false_iff_ne.mpr hhead, hlast]
        simpa using hne

theorem stored_loose (m : Memory Addr) (hnodup : nodes.Nodup) :
    Stored nodes m (nodes.map fun x => .row [x]) := by
  have hnodes : Shape.nodes (nodes.map fun x => Piece.row [x]) = nodes := by
    rw [Shape.nodes, List.flatMap_map]
    exact List.flatMap_singleton' nodes
  refine ⟨⟨fun p hp => ?_, hnodes.symm ▸ hnodup⟩, fun x hx => hnodes ▸ hx⟩
  obtain ⟨x, -, rfl⟩ := List.mem_map.mp hp
  exact .singleton x

end Runs

/-- From nodes in no list, whatever their links hold, every legal run leaves the
lists of its shape: the loops visit the entries in order and back, the tests
answer by the entries, and nothing but links of the nodes is stored to. -/
theorem lists_follow_shapes (nodes : List Addr) (m : Memory Addr) (hnodup : nodes.Nodup)
    (hs : Spaced nodes) (ops : List Operation) (l : Shape Addr)
    (hsteps : Steps (nodes.map fun x => .row [x]) ops l) :
    let m' := ops.foldl Operation.run m
    l.nodes.Nodup ∧ (∀ head entries, .ring head entries ∈ l → Reads m' head entries) ∧
      m.Frame m' (LinkBytes nodes) := by
  intro m'
  obtain ⟨hstored, hframe⟩ := steps_become hsteps hs (stored_loose m hnodup)
  refine ⟨hstored.shows.nodup, fun head entries hring => ?_, hframe⟩
  obtain ⟨rest, hperm⟩ := (List.mem_iff_append.mp hring)
  obtain ⟨after, rfl⟩ := hperm
  exact (hstored.perm List.perm_middle).reads

/-- Two nodes queued, the first one moved to the back, and both spliced away. -/
theorem lists_follow_shapes_queue :
    let m' := [.initListHead 0x1000, .listAddTail 0x1010 0x1000, .listAddTail 0x1020 0x1000,
      .listRotateLeft 0x1000, .initListHead 0x1030, .listSpliceInit 0x1000 0x1030].foldl
        Operation.run ⟨fun _ => 0xFF, []⟩
    Reads m' 0x1030 [0x1020, 0x1010] ∧ Reads m' 0x1000 [] := by
  have hsteps : Steps ([0x1000, 0x1010, 0x1020, 0x1030].map fun x => .row [x])
      [.initListHead 0x1000, .listAddTail 0x1010 0x1000, .listAddTail 0x1020 0x1000,
        .listRotateLeft 0x1000, .initListHead 0x1030, .listSpliceInit 0x1000 0x1030]
      [.ring 0x1000 [], .ring 0x1030 [0x1020, 0x1010]] := by
    refine .cons .initListHead ?_
    refine .cons (.perm (.swap ..) (.listAddTail (a := []) (b := [])) (.refl _)) ?_
    refine .cons (.perm (.swap ..) (.listAddTail (a := [0x1010]) (b := [])) (.refl _)) ?_
    refine .cons .listRotateLeft ?_
    refine .cons (.perm (.swap ..) .initListHead (.swap ..)) ?_
    exact .cons (.listSpliceInit (.listSplice (a := []) (b := []))) .nil
  obtain ⟨-, hreads, -⟩ := lists_follow_shapes [0x1000, 0x1010, 0x1020, 0x1030]
    ⟨fun _ => 0xFF, []⟩ (by decide) ⟨by simp [Aligned4], by simp⟩ _ _ hsteps
  exact ⟨hreads _ _ (by simp), hreads _ _ (by simp)⟩

section Safe
variable {nodes : List Addr} {m : Memory Addr} {l : Shape Addr} {h k x : Addr}
  {a b ms ns : List Addr}

end Safe

end Yack.ListOperations
