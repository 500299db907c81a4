import MikeOS.FileModes
import MikeOS.ListIterator

/-!
# Mount points and vfs_open

Mount points lie at addresses, and a tree is what the lists of their children
make of them; the file system mounted at one is left abstract. The list of the
mount points to visit takes its nodes from `kmalloc` and gives them back to
`kfree`, and of these it is assumed that a new node is not `NULL` and in no
list, that `kfree` returns and that it changes no other node. A loop that runs
out of fuel returns nothing. `initialize_list` ends without a `return`, so what
`vfs_open` reads as its result is a parameter. `specific_path` is never read.
-/

set_option autoImplicit false

namespace MikeOS.Vfs
open LinkedList
open FileModes (CStr)
open ElementList (Node State Chain addElement popElement isEmpty initializeList lastCell popLoop)
open ListIterator (iterList)

/-! ## strstr -/

def charAt (s : CStr) (i : ℕ) : Byte := s.1.getD i 0#8

/-- The loop of `strstr`, which tests the first character of `needle` and never
moves `haystack`. A pointer into `haystack` is its offset. -/
def strstrLoop (haystack needle : CStr) : ℕ → ℕ → Option ℕ → Option (Option ℕ)
  | 0, _, _ => none
  | fuel+1, needleIter, substr =>
    if charAt haystack 0 ≠ 0#8 ∧ charAt needle 0 ≠ 0#8 then
      if charAt needle needleIter = charAt haystack 0 then
        strstrLoop haystack needle fuel (needleIter+1) (if substr = none then some 0 else substr)
      else strstrLoop haystack needle fuel 0 none
    else some substr

def strstr (fuel : ℕ) (haystack needle : CStr) : Option (Option ℕ) := strstrLoop haystack needle fuel 0 none

theorem charAt_zero (s : CStr) : charAt s 0 = 0#8 ↔ s.1 = [] := by
  obtain ⟨s,hs⟩ := s
  cases s with
  | nil => simp [charAt]
  | cons c s =>
    have hc : c ≠ 0#8 := fun he => hs (by simp [he])
    simp [charAt, hc]

theorem strstrLoop_diverges {haystack needle : CStr} (hh : haystack.1 ≠ []) (hn : needle.1 ≠ []) (fuel : ℕ) :
    ∀ needleIter substr, strstrLoop haystack needle fuel needleIter substr = none := by
  induction fuel with
  | zero => exact fun _ _ => rfl
  | succ fuel ih =>
    intro needleIter substr
    rw [strstrLoop, if_pos ⟨mt (charAt_zero haystack).mp hh,mt (charAt_zero needle).mp hn⟩]
    split
    · apply ih
    · apply ih

theorem strstr_diverges {haystack needle : CStr} (hh : haystack.1 ≠ []) (hn : needle.1 ≠ []) (fuel : ℕ) :
    strstr fuel haystack needle = none :=
  strstrLoop_diverges hh hn fuel 0 none

/-- When it returns, nothing was found. -/
theorem strstr_returns {haystack needle : CStr} (h : haystack.1 = [] ∨ needle.1 = []) (fuel : ℕ) :
    strstr (fuel+1) haystack needle = some none := by
  rw [strstr, strstrLoop, if_neg]
  rw [not_and_or, not_not, not_not, charAt_zero, charAt_zero]
  exact h

theorem strstr_finds_nothing {haystack needle : CStr} {fuel : ℕ} {substr : Option ℕ}
    (h : strstr fuel haystack needle = some substr) : substr = none := by
  by_cases hblank : haystack.1 = [] ∨ needle.1 = []
  · cases fuel with
    | zero => simp [strstr, strstrLoop] at h
    | succ fuel =>
      rw [strstr_returns hblank] at h
      exact (Option.some.inj h).symm
  · rw [not_or] at hblank
    rw [strstr_diverges hblank.1 hblank.2] at h
    simp at h

def FirstAt (haystack needle : List Byte) : Option ℕ → Prop
  | some i => needle <+: haystack.drop i ∧ ∀ j < i, ¬needle <+: haystack.drop j
  | none => ∀ i, ¬needle <+: haystack.drop i

def Searches (haystack needle : CStr) : Prop :=
  ∃ fuel substr, strstr fuel haystack needle = some substr ∧ FirstAt haystack.1 needle.1 substr

theorem firstAt_none_nil (needle : List Byte) : FirstAt [] needle none ↔ needle ≠ [] := by
  simp [FirstAt]

theorem not_firstAt_none_nil (haystack : List Byte) : ¬FirstAt haystack [] none :=
  fun h => h 0 List.nil_prefix

/-- `strstr` can return only where one of its tests of the first characters
fails, and then it returns `NULL`. -/
theorem searches_iff (haystack needle : CStr) : Searches haystack needle ↔ haystack.1 = [] ∧ needle.1 ≠ [] := by
  constructor
  · rintro ⟨fuel,substr,hreturns,hfirst⟩
    obtain rfl := strstr_finds_nothing hreturns
    have hneedle : needle.1 ≠ [] := fun he => not_firstAt_none_nil haystack.1 (he ▸ hfirst)
    refine ⟨by_contra fun hhaystack => ?_,hneedle⟩
    rw [strstr_diverges hhaystack hneedle] at hreturns
    cases hreturns
  · rintro ⟨hhaystack,hneedle⟩
    refine ⟨1,none,strstr_returns (Or.inl hhaystack) 0,?_⟩
    rw [hhaystack]
    exact (firstAt_none_nil needle.1).mpr hneedle

/-- Looking for `aab` in `aaab`. -/
theorem aab_not_searched :
    ¬Searches ⟨[0x61#8, 0x61#8, 0x61#8, 0x62#8],by decide⟩ ⟨[0x61#8, 0x61#8, 0x62#8],by decide⟩ := by
  rintro ⟨fuel,substr,hreturns,-⟩
  rw [strstr_diverges (List.cons_ne_nil _ _) (List.cons_ne_nil _ _)] at hreturns
  cases hreturns

/-! ## Mount points and their lists in memory -/

/-- `kmalloc` and `kfree` for the nodes of lists: the node the one returns and
what the other leaves in a node. A call that does not return gives nothing. -/
structure Allocator (κ : Type*) where
  kmalloc : κ → Option (Word × κ)
  kfree : Word → κ → Option (Node × κ)

structure ListT where
  head : Word
  iterNode : Word
  deriving DecidableEq, Repr

/-- The nodes of all lists are those of `treeNodes`, the list of `vfs_open`. -/
structure Mounts (φ κ : Type*) where
  mountPoints : Word
  mountPath : Word → CStr
  mountedFs : Word → φ
  children : Word → ListT
  treeNodes : State
  heap : κ

variable {φ κ : Type*}

def Mounts.childrenOf (m : Mounts φ κ) (mountPoint : Word) : State where
  links := ⟨(m.children mountPoint).head, m.treeNodes.links.next⟩
  iterNode := (m.children mountPoint).iterNode
  element := m.treeNodes.element
  allocated := m.treeNodes.allocated

def Mounts.setChildren (m : Mounts φ κ) (children : ListT) : Mounts φ κ :=
  { m with children := Function.update m.children m.mountPoints children }

def iterChildren (m : Mounts φ κ) : Word × Mounts φ κ :=
  ((iterList (m.childrenOf m.mountPoints)).1, m.setChildren
    ⟨(iterList (m.childrenOf m.mountPoints)).2.links.head, (iterList (m.childrenOf m.mountPoints)).2.iterNode⟩)

section
variable (a : Allocator κ)

def addNode (fuel : ℕ) (element : Word) (m : Mounts φ κ) : Option (Mounts φ κ) :=
  (a.kmalloc m.heap).bind fun new =>
    (addElement fuel element new.1 m.treeNodes).map fun r => { m with treeNodes := r.2, heap := new.2 }

/-- `pop_element` on `tree_nodes` with index 0; a node there is freed. -/
def popNode (fuel : ℕ) (m : Mounts φ κ) : Option (Word × Mounts φ κ) :=
  (if isEmpty m.treeNodes then some (⟨null, null⟩, m.heap) else a.kfree m.treeNodes.links.head m.heap).bind fun left =>
    (popElement fuel 0#32 left.1 m.treeNodes).map fun r => (r.1, { m with treeNodes := r.2, heap := left.2 })

def addChildren (path : CStr) : ℕ → Mounts φ κ → Option (Mounts φ κ)
  | 0, _ => none
  | fuel+1, m =>
    if (iterChildren m).1 = null then some (iterChildren m).2
    else (strstr fuel path (m.mountPath (iterChildren m).1)).bind fun specificPath =>
      (if specificPath ≠ none then addNode a fuel m.mountPoints (iterChildren m).2
        else some (iterChildren m).2).bind (addChildren path fuel)

def walk (path : CStr) : ℕ → Mounts φ κ → Option (Word × Mounts φ κ)
  | 0, _ => none
  | fuel+1, m =>
    (popNode a fuel m).bind fun current =>
      (if current.1 ≠ null then addChildren a path fuel current.2 else some current.2).bind fun m =>
        if isEmpty m.treeNodes then some (current.1, m) else walk path fuel m

def freeList : ℕ → Word → Mounts φ κ → Option (Mounts φ κ)
  | 0, _, _ => none
  | fuel+1, node, m =>
    if node = null then some m
    else (a.kfree node m.heap).bind fun left =>
      freeList fuel (m.treeNodes.links.next node)
        { m with treeNodes := m.treeNodes.kfree node left.1, heap := left.2 }

def vfsOpen (initialized : Bool) (fuel : ℕ) (path : CStr) (m : Mounts φ κ) : Option (Option φ × Mounts φ κ) :=
  let m := { m with treeNodes := initializeList m.treeNodes }
  (if initialized then (addNode a fuel m.mountPoints m).bind (walk a path fuel) else some (null, m)).bind fun r =>
    (freeList a fuel r.2.treeNodes.links.head r.2).map fun m =>
      (if r.1 ≠ null then some (m.mountedFs r.1) else none, m)

end

/-! ## The mount point a path belongs to -/

inductive MountPoint (φ : Type*) where
  | mk (mountPath : CStr) (mountedFs : φ) (children : List (MountPoint φ))

def MountPoint.mountPath : MountPoint φ → CStr
  | .mk mountPath _ _ => mountPath

def MountPoint.mountedFs : MountPoint φ → φ
  | .mk _ mountedFs _ => mountedFs

def MountPoint.children : MountPoint φ → List (MountPoint φ)
  | .mk _ _ children => children

/-- The mount point at an address is that of a tree: the list of its children
holds the addresses of the tree's. -/
inductive Stands (m : Mounts φ κ) : Word → MountPoint φ → Prop
  | mk {p : Word} {nodes : List Word} {children : List (MountPoint φ)} (hp : p ≠ null)
      (hchain : Chain (m.childrenOf p) nodes)
      (hchildren : List.Forall₂ (Stands m) (nodes.map m.treeNodes.element) children) :
      Stands m p (.mk (m.mountPath p) (m.mountedFs p) children)

/-- The children of `mount_points` that `iter_list` returns before it returns
`NULL`. -/
def Remaining (m : Mounts φ κ) (rest : List Word) : Prop :=
  ∃ before nodes, Chain (m.childrenOf m.mountPoints) (before ++ nodes) ∧
    Linked null m.treeNodes.links.next (m.children m.mountPoints).iterNode nodes null ∧
    nodes.map m.treeNodes.element = rest

/-- `kmalloc` returns a node that is not allocated, never `NULL`, and `kfree`
returns from freeing it. -/
def Provides (a : Allocator κ) (m : Mounts φ κ) : Prop :=
  ∃ new k left k', a.kmalloc m.heap = some (new, k) ∧ new ≠ null ∧ new ∉ m.treeNodes.allocated ∧
    a.kfree new k = some (left, k')

/-- `r` lies `depth` levels below the first mount point, and the mount paths on
the way down to it are prefixes of the path. -/
inductive Matched (path : CStr) : MountPoint φ → ℕ → MountPoint φ → Prop
  | here (m : MountPoint φ) : Matched path m 0 m
  | child {m child r : MountPoint φ} {depth : ℕ} (hm : child ∈ m.children)
      (hp : child.mountPath.1 <+: path.1) (h : Matched path child depth r) : Matched path m (depth+1) r

def Deepest (path : CStr) (m r : MountPoint φ) : Prop :=
  ∃ depth, Matched path m depth r ∧ ∀ d r', Matched path m d r' → d ≤ depth

theorem deepest_root {path : CStr} {m : MountPoint φ}
    (h : ∀ child ∈ m.children, ¬ child.mountPath.1 <+: path.1) : Deepest path m m := by
  refine ⟨0,.here m,?_⟩
  intro d r hr
  cases hr with
  | here => exact le_rfl
  | child hm hp _ => exact absurd hp (h _ hm)

/-- `vfs_open` returns, having called `open` of the file system at the deepest
mount point. -/
def Resolves (a : Allocator κ) (initialized : Bool) (m : Mounts φ κ) (tree : MountPoint φ) (path : CStr) : Prop :=
  ∃ fuel fs m', vfsOpen a initialized fuel path m = some (some fs, m') ∧
    ∃ r, Deepest path tree r ∧ r.mountedFs = fs

/-! ## The inner loop -/

def Blank (m : Mounts φ κ) (path : CStr) (rest : List Word) : Prop :=
  path.1 = [] ∨ ∀ child ∈ rest, (m.mountPath child).1 = []

structure Ahead (m : Mounts φ κ) (nodes : List Word) : Prop where
  linked : Linked null m.treeNodes.links.next (m.children m.mountPoints).iterNode nodes null
  element : ∀ x ∈ nodes, m.treeNodes.element x ≠ null

def Mounts.rewound (m : Mounts φ κ) : Mounts φ κ :=
  m.setChildren ⟨(m.children m.mountPoints).head, (m.children m.mountPoints).head⟩

variable {a : Allocator κ} {m : Mounts φ κ} {path : CStr}

theorem iterChildren_nil (h : Ahead m []) : iterChildren m = (null, m.rewound) := by
  have hnull : (m.childrenOf m.mountPoints).iterNode = null := h.linked
  rw [iterChildren, iterList, if_pos hnull]
  rfl

def Mounts.passed (m : Mounts φ κ) (x : Word) : Mounts φ κ :=
  m.setChildren ⟨(m.children m.mountPoints).head, m.treeNodes.links.next x⟩

theorem iterChildren_cons {x : Word} {nodes : List Word} (h : Ahead m (x::nodes)) :
    iterChildren m = (m.treeNodes.element x, m.passed x) ∧ Ahead (m.passed x) nodes := by
  obtain ⟨hx,hne,hrest⟩ := h.linked
  have hnode : (m.childrenOf m.mountPoints).iterNode = x := hx
  refine ⟨?_,?_,fun y hy => h.element y (List.mem_cons_of_mem x hy)⟩
  · rw [iterChildren, iterList, hnode, if_neg hne]
    rfl
  · simpa [Mounts.passed, Mounts.setChildren] using hrest

theorem passed_rewound (m : Mounts φ κ) (x : Word) : (m.passed x).rewound = m.rewound := by
  simp [Mounts.rewound, Mounts.passed, Mounts.setChildren]

theorem addChildren_blank {nodes : List Word} (h : Ahead m nodes) (hb : Blank m path (nodes.map m.treeNodes.element))
    (fuel : ℕ) : addChildren a path fuel m = if nodes.length < fuel then some m.rewound else none := by
  induction nodes generalizing m fuel with
  | nil =>
    cases fuel with
    | zero => rfl
    | succ fuel => rw [addChildren, iterChildren_nil h, if_pos rfl, if_pos (by simp)]
  | cons x nodes ih =>
    cases fuel with
    | zero => rfl
    | succ fuel =>
      obtain ⟨hiter,hahead⟩ := iterChildren_cons h
      rw [addChildren, hiter, if_neg (h.element x List.mem_cons_self), List.length_cons]
      cases fuel with
      | zero => simp [strstr, strstrLoop]
      | succ fuel =>
        rw [strstr_returns (hb.imp_right fun hc => hc _ List.mem_cons_self), Option.bind_some, if_neg (by simp),
          Option.bind_some, ih hahead (hb.imp_right fun hc y hy => hc y (List.mem_cons_of_mem _ hy)),
          passed_rewound]
        simp only [Nat.add_lt_add_iff_right]

theorem addChildren_diverges {nodes : List Word} (h : Ahead m nodes)
    (hb : ¬ Blank m path (nodes.map m.treeNodes.element)) (fuel : ℕ) : addChildren a path fuel m = none := by
  rw [Blank, not_or] at hb
  obtain ⟨hpath,hnodes⟩ := hb
  induction fuel generalizing m nodes with
  | zero => rfl
  | succ fuel ih =>
    cases nodes with
    | nil => simp at hnodes
    | cons x nodes =>
      obtain ⟨hiter,hahead⟩ := iterChildren_cons h
      rw [addChildren, hiter, if_neg (h.element x List.mem_cons_self)]
      by_cases hx : (m.mountPath (m.treeNodes.element x)).1 = []
      · have hrest : ¬ ∀ child ∈ nodes.map m.treeNodes.element, (m.mountPath child).1 = [] := fun hall =>
          hnodes (List.forall_mem_cons.mpr ⟨hx,hall⟩)
        refine Option.bind_eq_none_iff.mpr fun specificPath hstr => ?_
        rw [strstr_finds_nothing hstr, if_neg (by simp), Option.bind_some]
        exact ih hahead hrest
      · rw [strstr_diverges hpath hx]
        rfl

/-! ## The first node -/

structure Popped (a : Allocator κ) (m m' : Mounts φ κ) (new : Word) : Prop where
  mountPoints : m'.mountPoints = m.mountPoints
  mountPath : m'.mountPath = m.mountPath
  mountedFs : m'.mountedFs = m.mountedFs
  children : m'.children = m.children
  empty : isEmpty m'.treeNodes = true
  allocated : m'.treeNodes.allocated = m.treeNodes.allocated
  next : ∀ x, x ≠ new → m'.treeNodes.links.next x = m.treeNodes.links.next x
  element : ∀ x, x ≠ new → m'.treeNodes.element x = m.treeNodes.element x
  fresh : new ∉ m.treeNodes.allocated
  returns : ∀ fuel fuel', (addNode a (fuel+1) m.mountPoints { m with treeNodes := initializeList m.treeNodes }).bind
    (popNode a (fuel'+1)) = some (m.mountPoints, m')

/-- On an empty list `add_element` needs one round, and `pop_element` undoes it. -/
theorem first_popped (h : Provides a m) : ∃ m' new, Popped a m m' new := by
  obtain ⟨new,k,left,k',hnew,hnull,hfresh,hfree⟩ := h
  refine ⟨{ m with treeNodes := ?_, heap := k' },new,rfl,rfl,rfl,rfl,?_,?_,?_,?_,hfresh,?_⟩
  · exact { links := ⟨null, Function.update (Function.update m.treeNodes.links.next new null) new left.next⟩
            iterNode := null
            element := Function.update (Function.update m.treeNodes.element new m.mountPoints) new left.element
            allocated := m.treeNodes.allocated }
  · rfl
  · rfl
  · exact fun x hx => by simp [Function.update_of_ne hx]
  · exact fun x hx => by simp [Function.update_of_ne hx]
  · intro fuel fuel'
    simp [addNode, hnew, addElement, lastCell, initializeList, load, store, State.assign, State.setElement,
      State.kmalloc, popNode, isEmpty, hnull, hfree, popElement, popLoop, State.kfree]


theorem popped_ahead {m' : Mounts φ κ} {new : Word} {nodes : List Word} (hp : Popped a m m' new) (hn : new ∉ nodes)
    (h : Ahead m nodes) : Ahead m' nodes := by
  have hne : ∀ x ∈ nodes, x ≠ new := fun x hx => ne_of_mem_of_not_mem hx hn
  refine ⟨?_,fun x hx => ?_⟩
  · rw [hp.children, hp.mountPoints]
    exact linked_frame h.linked fun x hx => hp.next x (hne x hx)
  · rw [hp.element x (hne x hx)]
    exact h.element x hx

theorem popped_blank {m' : Mounts φ κ} {new : Word} {nodes : List Word} (hp : Popped a m m' new) (hn : new ∉ nodes) :
    Blank m' path (nodes.map m'.treeNodes.element) ↔ Blank m path (nodes.map m.treeNodes.element) := by
  rw [Blank, Blank, hp.mountPath,
    List.map_congr_left fun x hx => hp.element x (ne_of_mem_of_not_mem hx hn)]

/-! ## vfs_open -/

theorem freeList_empty (fuel : ℕ) (m : Mounts φ κ) : freeList a (fuel+1) null m = some m := by
  rw [freeList, if_pos rfl]

/-- Where the undefined value is read as false, no file system is asked. -/
theorem vfsOpen_uninitialized (fuel : ℕ) : vfsOpen a false (fuel+1) path m =
    some (none, { m with treeNodes := initializeList m.treeNodes }) := by
  rw [vfsOpen, if_neg (by simp), Option.bind_some, show (initializeList m.treeNodes).links.head = null from rfl,
    freeList_empty]
  rfl

theorem vfsOpen_short : vfsOpen a true 0 path m = none ∧ vfsOpen a true 1 path m = none := by
  constructor
  · simp [vfsOpen, addNode, addElement, lastCell]
  · simp [vfsOpen, walk, popNode, popElement, popLoop]

section
variable {m' : Mounts φ κ} {new : Word} {nodes : List Word}

/-- The first round of the outer loop, which visits `mount_points`. -/
theorem walk_round (hp : Popped a m m' new) (hne : m.mountPoints ≠ null) (fuel : ℕ) :
    (addNode a (fuel+2) m.mountPoints { m with treeNodes := initializeList m.treeNodes }).bind
        (walk a path (fuel+2)) =
      (addChildren a path (fuel+1) m').bind fun m₁ =>
        if isEmpty m₁.treeNodes then some (m.mountPoints, m₁) else walk a path (fuel+1) m₁ := by
  obtain ⟨m₀,hadd,hm₀⟩ := Option.bind_eq_some_iff.mp (hp.returns (fuel+1) fuel)
  rw [hadd, Option.bind_some, walk, hm₀, Option.bind_some, if_pos hne]

/-- Nothing is queued in the first round, so it is the only one. -/
theorem vfsOpen_blank (hp : Popped a m m' new) (hne : m.mountPoints ≠ null) (ha : Ahead m nodes) (hn : new ∉ nodes)
    (hb : Blank m path (nodes.map m.treeNodes.element)) (fuel : ℕ) :
    vfsOpen a true (fuel+2) path m =
      if nodes.length < fuel+1 then some (some (m.mountedFs m.mountPoints), m'.rewound) else none := by
  have hempty : isEmpty m'.rewound.treeNodes = true := hp.empty
  have hhead : m'.rewound.treeNodes.links.head = null := of_decide_eq_true hp.empty
  rw [vfsOpen, if_pos rfl, walk_round hp hne, addChildren_blank (popped_ahead hp hn ha) ((popped_blank hp hn).mpr hb)]
  split
  · rw [Option.bind_some, if_pos hempty, Option.bind_some, hhead, freeList_empty, Option.map_some, if_pos hne,
      show m'.rewound.mountedFs = m.mountedFs from hp.mountedFs]
  · rfl

theorem vfsOpen_diverges (hp : Popped a m m' new) (hne : m.mountPoints ≠ null) (ha : Ahead m nodes) (hn : new ∉ nodes)
    (hb : ¬ Blank m path (nodes.map m.treeNodes.element)) (fuel : ℕ) :
    vfsOpen a true fuel path m = none := by
  rcases fuel with _ | _ | fuel
  · exact vfsOpen_short.1
  · exact vfsOpen_short.2
  · rw [vfsOpen, if_pos rfl, walk_round hp hne,
      addChildren_diverges (popped_ahead hp hn ha) ((popped_blank hp hn).not.mpr hb)]
    rfl

end

theorem stands_ne_null {ps : List Word} {children : List (MountPoint φ)} (h : List.Forall₂ (Stands m) ps children) :
    ∀ p ∈ ps, p ≠ null := by
  induction h with
  | nil => simp
  | cons hp _ ih =>
    obtain ⟨hne,-,-⟩ := hp
    exact List.forall_mem_cons.mpr ⟨hne,ih⟩

theorem ahead_of_remaining {tree : MountPoint φ} {rest : List Word} (hm : Stands m m.mountPoints tree)
    (hr : Remaining m rest) : ∃ nodes, Ahead m nodes ∧ nodes.map m.treeNodes.element = rest ∧
      ∀ x ∈ nodes, x ∈ m.treeNodes.allocated := by
  obtain ⟨before,nodes,hchain,hlinked,hrest⟩ := hr
  obtain ⟨-,hall,hchildren⟩ := hm
  rw [linked_unique hall.linked hchain.linked] at hchildren
  refine ⟨nodes,⟨hlinked,fun x hx => stands_ne_null hchildren _ ?_⟩,hrest,fun x hx => ?_⟩
  · exact List.mem_map_of_mem (List.mem_append_right before hx)
  · exact hchain.allocated x (List.mem_append_right before hx)

/-- `vfs_open` resolves a path precisely when the undefined result of
`initialize_list` is read as true, no child is compared with the path as a
nonempty string, and the file system of the root is the right one. -/
theorem vfsOpen_resolves_iff (a : Allocator κ) (initialized : Bool) (m : Mounts φ κ) (tree : MountPoint φ)
    (rest : List Word) (path : CStr) (hm : Stands m m.mountPoints tree) (hr : Remaining m rest) (ha : Provides a m) :
    Resolves a initialized m tree path ↔ initialized = true ∧
      (path.1 = [] ∨ ∀ child ∈ rest, (m.mountPath child).1 = []) ∧
      ∃ r, Deepest path tree r ∧ r.mountedFs = tree.mountedFs := by
  obtain ⟨nodes,hahead,rfl,halloc⟩ := ahead_of_remaining hm hr
  obtain ⟨m',new,hp⟩ := first_popped ha
  have hnew : new ∉ nodes := fun hx => hp.fresh (halloc new hx)
  obtain ⟨hne,hfs⟩ : m.mountPoints ≠ null ∧ m.mountedFs m.mountPoints = tree.mountedFs := by
    obtain ⟨hne,-,-⟩ := hm
    exact ⟨hne,rfl⟩
  constructor
  · rintro ⟨fuel,fs,m₁,hopen,r,hdeep,hfs₁⟩
    cases initialized with
    | false =>
      cases fuel with
      | zero => simp [vfsOpen, freeList] at hopen
      | succ fuel => simp [vfsOpen_uninitialized] at hopen
    | true =>
      have hblank : Blank m path (nodes.map m.treeNodes.element) := by
        by_contra hb
        rw [vfsOpen_diverges hp hne hahead hnew hb] at hopen
        cases hopen
      refine ⟨rfl,hblank,r,hdeep,?_⟩
      rcases fuel with _ | _ | fuel
      · rw [vfsOpen_short.1] at hopen
        cases hopen
      · rw [vfsOpen_short.2] at hopen
        cases hopen
      · rw [vfsOpen_blank hp hne hahead hnew hblank, Option.ite_none_right_eq_some, Option.some.injEq, Prod.mk.injEq,
          Option.some.injEq] at hopen
        rw [hfs₁, ← hopen.2.1, hfs]
  · rintro ⟨rfl,hblank,r,hdeep,hroot⟩
    refine ⟨nodes.length+2,_,m'.rewound,?_,r,hdeep,hroot⟩
    rw [vfsOpen_blank hp hne hahead hnew hblank, if_pos (by omega), hfs]

def slash : Byte := 0x2F#8

theorem root_spelled : 0#8 ∉ [slash] := by decide

def rootPath : CStr := ⟨[slash], root_spelled⟩

theorem mount_spelled : 0#8 ∉ [slash, 0x61#8] := by decide

def mountPathA : CStr := ⟨[slash, 0x61#8], mount_spelled⟩

def bump : Allocator ℕ where
  kmalloc k := some (BitVec.ofNat 32 (0x4000+16*k), k+1)
  kfree _ k := some (⟨null, null⟩, k)

def twoMounts (iterNode : Word) : Mounts ℕ ℕ where
  mountPoints := 0x1000#32
  mountPath p := if p = 0x1000#32 then rootPath else mountPathA
  mountedFs p := if p = 0x1000#32 then 1 else 2
  children p := if p = 0x1000#32 then ⟨0x3000#32, iterNode⟩ else ⟨null, null⟩
  treeNodes := ⟨⟨null, fun _ => null⟩, null, fun _ => 0x2000#32, [0x3000#32]⟩
  heap := 0

def twoTree : MountPoint ℕ := .mk rootPath 1 [.mk mountPathA 2 []]

theorem twoMounts_chain (iterNode : Word) : Chain ((twoMounts iterNode).childrenOf 0x1000#32) [0x3000#32] :=
  ⟨⟨rfl,by decide,rfl⟩,List.nodup_singleton _,fun _ hx => hx⟩

theorem twoMounts_stands (iterNode : Word) : Stands (twoMounts iterNode) 0x1000#32 twoTree := by
  have hempty : Chain ((twoMounts iterNode).childrenOf 0x2000#32) [] := ⟨rfl,List.nodup_nil,by simp⟩
  have hchild : Stands (twoMounts iterNode) 0x2000#32 (.mk mountPathA 2 []) := .mk (by decide) hempty .nil
  exact .mk (by decide) (twoMounts_chain iterNode) (.cons hchild .nil)

theorem twoMounts_provides (iterNode : Word) : Provides bump (twoMounts iterNode) :=
  ⟨0x4000#32,1,⟨null, null⟩,1,rfl,by decide,by simp [twoMounts],rfl⟩

theorem other_spelled : 0#8 ∉ [slash, 0x62#8] := by decide

/-- With the cursor at the end of the list, `/b` is resolved to the root. -/
theorem other_path_resolved : Resolves bump true (twoMounts null) twoTree ⟨[slash, 0x62#8], other_spelled⟩ := by
  have hrest : Remaining (twoMounts null) [] :=
    ⟨[0x3000#32],[],twoMounts_chain null,rfl,rfl⟩
  refine (vfsOpen_resolves_iff bump true _ _ [] _ (twoMounts_stands null) hrest (twoMounts_provides null)).mpr
    ⟨rfl,Or.inr (by simp),twoTree,deepest_root ?_,rfl⟩
  simp [twoTree, MountPoint.children, MountPoint.mountPath, mountPathA, slash]

theorem below_spelled : 0#8 ∉ [slash, 0x61#8, slash, 0x62#8] := by decide

/-- With the cursor before the first child and the path `/a/b` the call never
returns. -/
theorem mounted_path_unresolved : Stands (twoMounts 0x3000#32) 0x1000#32 twoTree ∧
    Provides bump (twoMounts 0x3000#32) ∧
    ¬ Resolves bump true (twoMounts 0x3000#32) twoTree ⟨[slash, 0x61#8, slash, 0x62#8], below_spelled⟩ := by
  refine ⟨twoMounts_stands _,twoMounts_provides _,?_⟩
  rintro ⟨fuel,fs,m',hopen,-⟩
  obtain ⟨m₁,new,hp⟩ := first_popped (twoMounts_provides 0x3000#32)
  have hahead : Ahead (twoMounts 0x3000#32) [0x3000#32] := by
    refine ⟨⟨rfl,by decide,rfl⟩,fun x _ => ?_⟩
    change (0x2000#32 : Word) ≠ null
    decide
  rw [vfsOpen_diverges hp (by decide) hahead hp.fresh] at hopen
  · cases hopen
  · simp [Blank, twoMounts, mountPathA]

end MikeOS.Vfs
