import MikeOS.Common
import MikeOS.Library.LinkedList
import MikeOS.Library.Transition

/-!
# Lists of elements

A list is a head and a chain of nodes, each with an element and the address of
the next node. What `kmalloc` returned for a new node and what `kfree` left in
a node are arguments of the calls, and the nodes that are allocated are kept as
a record that no function reads. The loops follow a pointer to the cell that
holds the address of the node they look at.
-/

set_option autoImplicit false

namespace MikeOS.ElementList
open LinkedList

/-- `links.head` is the field `head` of the list, `links.next` and `element`
are the fields of the nodes. -/
structure State where
  links : Pointers Word
  iterNode : Word
  element : Word → Word
  allocated : List Word

structure Node where
  element : Word
  next : Word
  deriving DecidableEq, Repr

def State.assign (s : State) (c : Cell Word) (v : Word) : State := { s with links := store s.links c v }

@[simp] theorem assign_element (s : State) (c : Cell Word) (v : Word) : (s.assign c v).element = s.element := rfl

def State.setElement (s : State) (node element : Word) : State :=
  { s with element := Function.update s.element node element }

def State.kmalloc (s : State) (node : Word) : State := { s with allocated := node :: s.allocated }

/-- `kfree` may leave anything in the node and touches no other. -/
def State.kfree (s : State) (node : Word) (left : Node) : State :=
  { (s.assign (some node) left.next).setElement node left.element with allocated := s.allocated.erase node }

def initializeList (s : State) : State := { s with links := { s.links with head := null }, iterNode := null }

def lastCell (s : State) : ℕ → Cell Word → Option (Cell Word)
  | 0, _ => none
  | fuel+1, node => if load s.links node ≠ null then lastCell s fuel (some (load s.links node)) else some node

/-- `new` is what `kmalloc` returns. -/
def addElement (fuel : ℕ) (element new : Word) (s : State) : Option (Bool × State) :=
  match lastCell s fuel none with
  | none => none
  | some node =>
    let s := ((s.kmalloc new).assign node new)
    let s := (s.assign (some (load s.links node)) null).setElement (load s.links node) element
    some (true, if node = none then { s with iterNode := load s.links node } else s)

def popLoop (left : Node) : ℕ → Cell Word → Word → Word → State → Option (Word × State)
  | 0, _, _, _, _ => none
  | fuel+1, nodePtr, node, elementIndex, s =>
    if node = null then some (null, s)
    else if elementIndex = 0#32 then
      let s := s.assign nodePtr (s.links.next node)
      let element := s.element node
      let s := s.kfree node left
      some (element, { s with iterNode := s.links.head })
    else popLoop left fuel (some node) (s.links.next node) (elementIndex-1#32) s

/-- `left` is what `kfree` leaves in the node. -/
def popElement (fuel : ℕ) (elementIndex : Word) (left : Node) (s : State) : Option (Word × State) :=
  if elementIndex.slt 0#32 then some (null, s) else popLoop left fuel none s.links.head elementIndex s

def removeLoop (element : Word) : ℕ → Cell Word → Word → State → Option (Bool × State)
  | 0, _, _, _ => none
  | fuel+1, nodePtr, node, s =>
    if node = null then some (false, s)
    else if s.element node = element then some (true, s.assign nodePtr (s.links.next node))
    else removeLoop element fuel (some node) (s.links.next node) s

def removeElement (fuel : ℕ) (element : Word) (s : State) : Option (Bool × State) :=
  removeLoop element fuel none s.links.head s

def sizeLoop (s : State) : ℕ → Word → Word → Option Word
  | 0, _, _ => none
  | fuel+1, node, counter =>
    if node = null then some counter else sizeLoop s fuel (s.links.next node) (counter+1#32)

def size (fuel : ℕ) (s : State) : Option Word := sizeLoop s fuel s.links.head 0#32

def isEmpty (s : State) : Bool := s.links.head = null

/-! ## What the chain stands for -/

structure Chain (s : State) (nodes : List Word) : Prop where
  linked : Linked null s.links.next s.links.head nodes null
  nodup : nodes.Nodup
  allocated : ∀ x ∈ nodes, x ∈ s.allocated

def Represents (s : State) (l : List Word) : Prop := ∃ nodes, Chain s nodes ∧ nodes.map s.element = l

theorem chain_init (s : State) : Represents (initializeList s) [] :=
  ⟨[],⟨rfl,List.nodup_nil,by simp⟩,rfl⟩

/-! ## add_element -/

theorem lastCell_spec {s : State} (pre post : List Word) (fuel : ℕ) (hf : post.length < fuel)
    (hl : Linked null s.links.next s.links.head (pre ++ post) null) :
    lastCell s fuel (cellAfter pre) = some (cellAfter (pre ++ post)) := by
  induction post generalizing pre fuel with
  | nil =>
    obtain ⟨fuel,rfl⟩ := Nat.exists_eq_add_one_of_ne_zero (Nat.ne_zero_of_lt hf)
    rw [List.append_nil] at hl ⊢
    rw [lastCell, load_cellAfter hl, if_neg (not_not.mpr rfl)]
  | cons x post ih =>
    obtain ⟨fuel,rfl⟩ := Nat.exists_eq_add_one_of_ne_zero (Nat.ne_zero_of_lt hf)
    obtain ⟨r,hpre,hr,hx,-⟩ := linked_append.mp hl
    rw [lastCell, load_cellAfter hpre, hr, if_pos hx, ← cellAfter_snoc pre x]
    have hrest := ih (pre ++ [x]) fuel (by simp at hf; omega) (by simpa using hl)
    simpa using hrest

theorem add_spec {s : State} {nodes : List Word} {fuel : ℕ} (element : Word) {new : Word} (h : Chain s nodes)
    (hf : nodes.length < fuel) (hnull : new ≠ null) (hfresh : new ∉ s.allocated) :
    ∃ s', addElement fuel element new s = some (true, s') ∧ Chain s' (nodes ++ [new]) ∧
      (nodes ++ [new]).map s'.element = nodes.map s.element ++ [element] := by
  have hnot : new ∉ nodes := fun hm => hfresh (h.allocated new hm)
  have hlast : lastCell s fuel none = some (cellAfter nodes) := lastCell_spec [] nodes fuel hf h.linked
  have hload : load (store s.links (cellAfter nodes) new) (cellAfter nodes) = new :=
    load_cellAfter (linked_store h.nodup h.linked)
  have hchain : ∀ t : State, t.links = store (store s.links (cellAfter nodes) new) (some new) null →
      t.allocated = new::s.allocated → Chain t (nodes ++ [new]) := by
    intro t hlinks halloc
    refine ⟨?_,?_,?_⟩
    · rw [hlinks]
      exact linked_snoc h.nodup hnot hnull h.linked
    · rw [List.nodup_append]
      refine ⟨h.nodup,List.nodup_singleton new,fun x hx y hy he => hnot ?_⟩
      rw [← List.mem_singleton.mp hy, ← he]
      exact hx
    · rw [halloc]
      intro x hx
      rcases List.mem_append.mp hx with hx | hx
      · exact List.mem_cons_of_mem _ (h.allocated x hx)
      · rw [List.mem_singleton.mp hx]
        exact List.mem_cons_self
  have helement : ∀ t : State, t.element = Function.update s.element new element →
      (nodes ++ [new]).map t.element = nodes.map s.element ++ [element] := by
    intro t ht
    rw [List.map_append, List.map_singleton, ht, Function.update_self]
    congr 1
    exact List.map_congr_left fun x hx => Function.update_of_ne (ne_of_mem_of_not_mem hx hnot) _ _
  rw [addElement, hlast]
  simp only [State.assign, State.kmalloc, State.setElement, hload]
  refine ⟨_,rfl,?_,?_⟩
  · apply hchain <;> split <;> rfl
  · apply helement
    split <;> rfl

/-! ## pop_element and remove_element -/

/-- Unlinking a node takes its element out of the list. -/
theorem unlink_chain {s : State} {pre post : List Word} {b : Word} (h : Chain s (pre ++ b::post)) :
    Chain (s.assign (cellAfter pre) (s.links.next b)) (pre ++ post) := by
  refine ⟨linked_unlink h.nodup h.linked,h.nodup.sublist (by simp),fun x hx => h.allocated x ?_⟩
  simp only [List.mem_append, List.mem_cons] at hx ⊢
  tauto

theorem kfree_chain {s : State} {nodes : List Word} {b : Word} (left : Node) (h : Chain s nodes) (hb : b ∉ nodes) :
    Chain (s.kfree b left) nodes ∧ nodes.map (s.kfree b left).element = nodes.map s.element := by
  have hne : ∀ x ∈ nodes, x ≠ b := fun x hx => ne_of_mem_of_not_mem hx hb
  refine ⟨⟨linked_frame h.linked fun x hx => store_next_ne _ _ (hne x hx),h.nodup,fun x hx => ?_⟩,?_⟩
  · exact (List.mem_erase_of_ne (hne x hx)).mpr (h.allocated x hx)
  · exact List.map_congr_left fun x hx => Function.update_of_ne (hne x hx) _ _

theorem popLoop_spec {s : State} (left : Node) (pre post : List Word) (fuel : ℕ) (elementIndex : Word)
    (h : Chain s (pre ++ post)) (hf : post.length < fuel) :
    ∀ node, Linked null s.links.next node post null →
    ∃ s', popLoop left fuel (cellAfter pre) node elementIndex s =
        some ((post[elementIndex.toNat]?.map s.element).getD null, s') ∧
      Represents s' (pre.map s.element ++ (post.eraseIdx elementIndex.toNat).map s.element) := by
  intro node hnode
  induction post generalizing pre fuel elementIndex node with
  | nil =>
    obtain ⟨fuel,rfl⟩ := Nat.exists_eq_add_one_of_ne_zero (Nat.ne_zero_of_lt hf)
    have hnull : node = null := hnode
    rw [popLoop, if_pos hnull]
    exact ⟨s,rfl,pre,by simpa using h,by simp⟩
  | cons b post ih =>
    obtain ⟨fuel,rfl⟩ := Nat.exists_eq_add_one_of_ne_zero (Nat.ne_zero_of_lt hf)
    obtain ⟨rfl,hb,hrest⟩ := hnode
    rw [popLoop, if_neg hb]
    by_cases hzero : elementIndex = 0#32
    · have hnot : node ∉ pre ++ post := by
        have := h.nodup
        rw [List.nodup_middle, List.nodup_cons] at this
        exact this.1
      obtain ⟨hchain,hmap⟩ := kfree_chain left (unlink_chain h) hnot
      rw [if_pos hzero, hzero]
      refine ⟨_,rfl,pre ++ post,⟨hchain.linked,hchain.nodup,hchain.allocated⟩,?_⟩
      simpa using hmap
    · have hindex : elementIndex.toNat = (elementIndex-1#32).toNat+1 := by bv_omega
      rw [if_neg hzero, ← cellAfter_snoc pre node, hindex]
      obtain ⟨s',hs',hrep⟩ := ih (pre ++ [node]) fuel (elementIndex-1#32)
        (by simpa using h) (by simp at hf; omega) _ hrest
      refine ⟨s',by simpa using hs',?_⟩
      simpa using hrep

/-- `remove_element` finds nothing, or takes the first node out that holds the
element. -/
theorem removeLoop_cases {s : State} (element : Word) (pre post : List Word) (fuel : ℕ) (hf : post.length < fuel)
    (hpre : ∀ x ∈ pre, s.element x ≠ element) :
    ∀ node, Linked null s.links.next node post null →
    (removeLoop element fuel (cellAfter pre) node s = some (false, s) ∧ ∀ x ∈ pre ++ post, s.element x ≠ element) ∨
    ∃ before b after, pre ++ post = before ++ b::after ∧ (∀ x ∈ before, s.element x ≠ element) ∧
      s.element b = element ∧ removeLoop element fuel (cellAfter pre) node s =
        some (true, s.assign (cellAfter before) (s.links.next b)) := by
  intro node hnode
  induction post generalizing pre fuel node with
  | nil =>
    obtain ⟨fuel,rfl⟩ := Nat.exists_eq_add_one_of_ne_zero (Nat.ne_zero_of_lt hf)
    have hnull : node = null := hnode
    rw [removeLoop, if_pos hnull]
    exact Or.inl ⟨rfl,by simpa using hpre⟩
  | cons b post ih =>
    obtain ⟨fuel,rfl⟩ := Nat.exists_eq_add_one_of_ne_zero (Nat.ne_zero_of_lt hf)
    obtain ⟨rfl,hb,hrest⟩ := hnode
    rw [removeLoop, if_neg hb]
    by_cases he : s.element node = element
    · rw [if_pos he]
      exact Or.inr ⟨pre,node,post,rfl,hpre,he,rfl⟩
    · rw [if_neg he, List.append_cons pre node post, ← cellAfter_snoc pre node]
      exact ih (pre ++ [node]) fuel (by simp at hf; omega)
        (List.forall_mem_append.mpr ⟨hpre,by simpa using he⟩) _ hrest

theorem sizeLoop_spec {s : State} (post : List Word) {fuel : ℕ} {counter : Word} (hf : post.length < fuel) :
    ∀ node, Linked null s.links.next node post null →
    sizeLoop s fuel node counter = some (counter+BitVec.ofNat 32 post.length) := by
  intro node hnode
  induction post generalizing fuel counter node with
  | nil =>
    obtain ⟨fuel,rfl⟩ := Nat.exists_eq_add_one_of_ne_zero (Nat.ne_zero_of_lt hf)
    have hnull : node = null := hnode
    rw [sizeLoop, if_pos hnull]
    simp
  | cons b post ih =>
    obtain ⟨fuel,rfl⟩ := Nat.exists_eq_add_one_of_ne_zero (Nat.ne_zero_of_lt hf)
    obtain ⟨rfl,hb,hrest⟩ := hnode
    rw [sizeLoop, if_neg hb, ih (by simp at hf; omega) _ hrest, List.length_cons, BitVec.add_assoc,
      Nat.add_comm, BitVec.ofNat_add]

theorem chain_length {s : State} {nodes : List Word} (h : Chain s nodes) : nodes.length < 2^32 := by
  have hnull : null ∉ nodes := fun hm => linked_ne_null h.linked null hm rfl
  have hnodup : (null::nodes).Nodup := List.nodup_cons.mpr ⟨hnull,h.nodup⟩
  have hinj : Function.Injective (BitVec.toFin : Word → Fin (2^32)) := fun _ _ he => BitVec.eq_of_toFin_eq he
  have hcard := (hnodup.map hinj).length_le_card
  rw [Fintype.card_fin, List.length_map, List.length_cons] at hcard
  omega

/-! ## Calls and the list they stand for -/

inductive Op where
  | add (element new : Word)
  | pop (elementIndex : Word) (left : Node)
  | remove (element : Word)
  deriving DecidableEq, Repr

inductive Value where
  | truth (value : Bool)
  | element (value : Word)
  deriving DecidableEq, Repr

def perform (fuel : ℕ) (s : State) : Op → Option (Value × State)
  | .add element new => (addElement fuel element new s).map fun r => (.truth r.1, r.2)
  | .pop elementIndex left => (popElement fuel elementIndex left s).map fun r => (.element r.1, r.2)
  | .remove element => (removeElement fuel element s).map fun r => (.truth r.1, r.2)

def reference (l : List Word) : Op → Value × List Word
  | .add element _ => (.truth true, l ++ [element])
  | .pop elementIndex _ =>
    if elementIndex.toInt < 0 ∨ l.length ≤ elementIndex.toInt then (.element null, l)
    else (.element (l.getD elementIndex.toInt.toNat null), l.eraseIdx elementIndex.toInt.toNat)
  | .remove element => if element ∈ l then (.truth true, l.erase element) else (.truth false, l)

/-- `kmalloc` returns a node that is not allocated, never `NULL`. -/
def Fresh (s : State) : Op → Prop
  | .add _ new => new ≠ null ∧ new ∉ s.allocated
  | _ => True

instance (s : State) (op : Op) : Decidable (Fresh s op) :=
  match op with
  | .add _ _ => inferInstanceAs (Decidable (_ ∧ _))
  | .pop _ _ => isTrue trivial
  | .remove _ => isTrue trivial

def AllFresh (fuel : ℕ) : List Op → State → Prop
  | [], _ => True
  | op::ops, s => Fresh s op ∧ ∀ r ∈ perform fuel s op, AllFresh fuel ops r.2

instance decidableAllFresh (fuel : ℕ) : ∀ (ops : List Op) (s : State), Decidable (AllFresh fuel ops s)
  | [], _ => isTrue trivial
  | _::ops, _ =>
    have := decidableAllFresh fuel ops
    inferInstanceAs (Decidable (_ ∧ _))

def outcomes (fuel : ℕ) : List Op → State → Option (List Value × State)
  | [], s => some ([], s)
  | op::ops, s => (perform fuel s op).bind fun r => (outcomes fuel ops r.2).map fun t => (r.1 :: t.1, t.2)

def references : List Op → List Word → List Value × List Word
  | [], l => ([], l)
  | op::ops, l =>
    let r := reference l op
    let t := references ops r.2
    (r.1 :: t.1, t.2)

theorem pop_spec {s : State} {nodes : List Word} {fuel : ℕ} {elementIndex : Word} (left : Node)
    (h : Chain s nodes) (hf : nodes.length < fuel) :
    ∃ s', perform fuel s (.pop elementIndex left) =
        some ((reference (nodes.map s.element) (.pop elementIndex left)).1, s') ∧
      Represents s' (reference (nodes.map s.element) (.pop elementIndex left)).2 := by
  rw [perform, popElement, reference, List.length_map]
  by_cases hneg : elementIndex.toInt < 0
  · have hslt : elementIndex.slt 0#32 = true := by rwa [BitVec.slt, decide_eq_true_eq]
    rw [if_pos hslt, if_pos (Or.inl hneg)]
    exact ⟨s,rfl,nodes,h,rfl⟩
  · have hslt : ¬ elementIndex.slt 0#32 = true := by rwa [BitVec.slt, decide_eq_true_eq]
    have hint : elementIndex.toInt = elementIndex.toNat := by
      rw [BitVec.toInt_eq_toNat_cond] at hneg ⊢
      have := elementIndex.isLt
      split at hneg <;> omega
    obtain ⟨s',hs',hrep⟩ := popLoop_spec left [] nodes fuel elementIndex h hf _ h.linked
    rw [if_neg hslt, hint, show (none : Cell Word) = cellAfter [] from rfl, hs', Int.toNat_natCast]
    by_cases hlen : nodes.length ≤ elementIndex.toNat
    · rw [if_pos (Or.inr (by exact_mod_cast hlen))]
      rw [List.getElem?_eq_none (by omega), List.eraseIdx_of_length_le (by omega)] at *
      exact ⟨s',rfl,hrep⟩
    · rw [if_neg (by omega)]
      refine ⟨s',?_,?_⟩
      · simp [List.getD_eq_getElem?_getD]
      · simpa [List.eraseIdx_map] using hrep

theorem remove_spec {s : State} {nodes : List Word} {fuel : ℕ} {element : Word} (h : Chain s nodes)
    (hf : nodes.length < fuel) :
    ∃ s', perform fuel s (.remove element) = some ((reference (nodes.map s.element) (.remove element)).1, s') ∧
      Represents s' (reference (nodes.map s.element) (.remove element)).2 := by
  rw [perform, removeElement, show (none : Cell Word) = cellAfter [] from rfl, reference]
  rcases removeLoop_cases element [] nodes fuel hf (by simp) _ h.linked with
    ⟨hr,hall⟩ | ⟨before,b,after,hsplit,hbefore,hb,hr⟩
  · have hm : element ∉ nodes.map s.element := by simpa using hall
    rw [hr, if_neg hm]
    exact ⟨s,rfl,nodes,h,rfl⟩
  · rw [List.nil_append] at hsplit
    subst hsplit
    have hm : element ∈ (before ++ b::after).map s.element := by simp [hb]
    have hnot : element ∉ before.map s.element := by simpa using hbefore
    rw [hr, if_pos hm]
    refine ⟨_,rfl,before ++ after,unlink_chain h,?_⟩
    rw [List.map_append, List.map_append, List.map_cons, hb, List.erase_append_right _ hnot, List.erase_cons_head]
    rfl

theorem perform_spec {s : State} {l : List Word} {fuel : ℕ} {op : Op} (h : Represents s l) (hf : l.length < fuel)
    (hfresh : Fresh s op) :
    ∃ s', perform fuel s op = some ((reference l op).1, s') ∧ Represents s' (reference l op).2 := by
  obtain ⟨nodes,hchain,rfl⟩ := h
  rw [List.length_map] at hf
  cases op with
  | add element new =>
    obtain ⟨s',hs',hchain',hmap⟩ := add_spec element hchain hf hfresh.1 hfresh.2
    exact ⟨s',by rw [perform, hs']; rfl,_,hchain',hmap⟩
  | pop elementIndex left => exact pop_spec left hchain hf
  | remove element => exact remove_spec hchain hf

theorem reference_length (l : List Word) (op : Op) : (reference l op).2.length ≤ l.length+1 := by
  cases op with
  | add element new => simp [reference]
  | pop elementIndex left =>
    rw [reference]
    split
    · exact Nat.le_succ _
    · exact (List.length_eraseIdx_le _ _).trans (Nat.le_succ _)
  | remove element =>
    rw [reference]
    split
    · exact List.length_erase_le.trans (Nat.le_succ _)
    · exact Nat.le_succ _

theorem outcomes_spec {fuel : ℕ} (ops : List Op) {s : State} {l : List Word} (h : Represents s l)
    (hf : l.length+ops.length < fuel) (hfresh : AllFresh fuel ops s) :
    ∃ s', outcomes fuel ops s = some ((references ops l).1, s') ∧ Represents s' (references ops l).2 ∧
      (references ops l).2.length < fuel := by
  induction ops generalizing s l with
  | nil => exact ⟨s,rfl,h,hf⟩
  | cons op ops ih =>
    rw [List.length_cons] at hf
    have hlen := reference_length l op
    obtain ⟨s₁,hs₁,hrep₁⟩ := perform_spec h (by omega : l.length < fuel) hfresh.1
    obtain ⟨s',hs',hrep',hlen'⟩ := ih hrep₁ (by omega) (hfresh.2 _ hs₁)
    exact ⟨s',by rw [outcomes, hs₁, Option.bind_some, hs']; rfl,hrep',hlen'⟩

theorem size_spec {s : State} {l : List Word} {fuel : ℕ} (h : Represents s l) (hf : l.length < fuel) :
    ∃ n, size fuel s = some n ∧ n.toNat = l.length := by
  obtain ⟨nodes,hchain,rfl⟩ := h
  rw [List.length_map] at hf ⊢
  refine ⟨_,sizeLoop_spec nodes hf _ hchain.linked,?_⟩
  rw [BitVec.zero_add, BitVec.toNat_ofNat, Nat.mod_eq_of_lt (chain_length hchain)]

theorem isEmpty_spec {s : State} {l : List Word} (h : Represents s l) : isEmpty s = decide (l = []) := by
  obtain ⟨nodes,hchain,rfl⟩ := h
  refine decide_eq_decide.mpr ?_
  rw [List.map_eq_nil_iff]
  have hl := hchain.linked
  cases nodes with
  | nil => exact ⟨fun _ => rfl,fun _ => hl⟩
  | cons x nodes =>
    obtain ⟨hx,hne,-⟩ := hl
    simp [hx, hne]

/-- Every sequence of calls on an initialised list returns, with the values and
the elements of the list it stands for. -/
theorem list_contents (fuel : ℕ) (ops : List Op) (s : State) (hf : ops.length < fuel)
    (hfresh : AllFresh fuel ops (initializeList s)) :
    ∃ s', outcomes fuel ops (initializeList s) = some ((references ops []).1, s') ∧
      Represents s' (references ops []).2 ∧
      (∃ n, size fuel s' = some n ∧ n.toNat = (references ops []).2.length) ∧
      isEmpty s' = decide ((references ops []).2 = []) := by
  obtain ⟨s',hs',hrep,hlen⟩ := outcomes_spec ops (chain_init s) (by simpa using hf) hfresh
  exact ⟨s',hs',hrep,size_spec hrep hlen,isEmpty_spec hrep⟩

def blank : State := ⟨⟨null, fun _ => 0#32⟩, null, fun _ => 0#32, []⟩

def sampleCalls : List Op :=
  [.add 7#32 0xC0800010#32, .add 7#32 0xC0800020#32, .pop 0#32 ⟨0#32, 0xFFFFFFFF#32⟩, .add 9#32 0xC0800010#32,
    .remove 7#32, .pop 5#32 ⟨0#32, 0#32⟩]

theorem sampleCalls_fresh : AllFresh 7 sampleCalls (initializeList blank) := by decide +kernel

theorem sampleCalls_contents : ∃ s', outcomes 7 sampleCalls (initializeList blank) =
      some ([.truth true, .truth true, .element 7#32, .truth true, .truth true, .element null], s') ∧
    Represents s' [9#32] := by
  obtain ⟨s',hs',hrep,-,-⟩ := list_contents 7 sampleCalls blank (by decide) sampleCalls_fresh
  exact ⟨s',hs',hrep⟩

end MikeOS.ElementList
