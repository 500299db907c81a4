import MikeOS.ElementList

/-!
# The iterator of a list

The list carries one cursor, `iter_node`. `add_element` sets it when the list
was empty and `pop_element` rewinds it, but `remove_element` leaves it alone,
so a run keeps the cursor on the list precisely when no call removes the node
the cursor stands on.
-/

set_option autoImplicit false

namespace MikeOS.ListIterator
open LinkedList ElementList

/-- The element returned and the list afterwards. -/
def iterList (s : State) : Word × State :=
  if s.iterNode = null then (null, { s with iterNode := s.links.head })
  else (s.element s.iterNode, { s with iterNode := s.links.next s.iterNode })

def iterTimes : ℕ → State → List Word × State
  | 0, s => ([], s)
  | n+1, s => ((iterList s).1::(iterTimes n (iterList s).2).1, (iterTimes n (iterList s).2).2)

inductive Call where
  | change (op : Op)
  | iter
  deriving DecidableEq, Repr

/-- A chain never has more nodes than are allocated, so this bounds the loops. -/
def bound (s : State) : ℕ := s.allocated.length+1

/-- The state after a call, for every node `kmalloc` may return. -/
def step (s : State) : Call → Option State
  | .change op => if Fresh s op then (perform (bound s) s op).map Prod.snd else none
  | .iter => some (iterList s).2

/-! ## What is promised of the cursor -/

def Reachable (s : State) (node : Word) : Prop :=
  node ≠ null ∧ ∃ path, Linked null s.links.next s.links.head path node

/-- From the head on, as many calls as `size` says return the elements in
order, and the next one returns `NULL` and rewinds. -/
def Round (s : State) (l : List Word) : Prop :=
  ∃ n s', size (bound s) s = some n ∧ n.toNat = l.length ∧ iterTimes n.toNat s = (l, s') ∧ iterList s' = (null, s)

structure Sound (s : State) (l : List Word) : Prop where
  elements : Represents s l
  cursor : s.iterNode = null ∨ Reachable s s.iterNode
  returned : (iterList s).1 = null ∨ (iterList s).1 ∈ l
  round : s.iterNode = s.links.head → Round s l
  returns : ∀ op, Fresh s op → ∃ r, perform (bound s) s op = some r

def CursorSound (s : State) : Prop := ∃ l, Sound s l

def FirstHolding (s : State) (element node : Word) : Prop :=
  node ≠ null ∧ ∃ path, Linked null s.links.next s.links.head path node ∧
    (∀ x ∈ path, s.element x ≠ element) ∧ s.element node = element

/-- The call does not remove the node under the cursor. -/
def SparesCursor (s : State) : Call → Prop
  | .change (.remove element) => ¬ FirstHolding s element s.iterNode
  | _ => True

def OnChain (s : State) : Prop := ∃ nodes, Chain s nodes ∧ (s.iterNode = null ∨ s.iterNode ∈ nodes)

theorem chain_bound {s : State} {nodes : List Word} (h : Chain s nodes) : nodes.length < bound s :=
  Nat.lt_succ_of_le (h.nodup.subperm h.allocated).length_le

theorem reachable_iff {s : State} {nodes : List Word} (h : Chain s nodes) (node : Word) :
    Reachable s node ↔ node ∈ nodes := by
  constructor
  · rintro ⟨hne,path,hpath⟩
    obtain ⟨rest,rfl⟩ := linked_split h.linked hpath hne
    simp
  · intro hm
    obtain ⟨pre,post,rfl⟩ := List.append_of_mem hm
    obtain ⟨r,hpre,hr,hne,-⟩ := linked_append.mp h.linked
    exact ⟨hne,pre,hr ▸ hpre⟩

theorem head_on_chain {s : State} {nodes : List Word} (h : Chain s nodes) :
    s.links.head = null ∨ s.links.head ∈ nodes := by
  have hl := h.linked
  cases nodes with
  | nil => exact Or.inl hl
  | cons x nodes =>
    rw [hl.1]
    exact Or.inr List.mem_cons_self

/-! ## A round of the iterator -/

theorem iterTimes_linked (post : List Word) (s : State) {q : Word}
    (h : Linked null s.links.next s.iterNode post q) :
    iterTimes post.length s = (post.map s.element, { s with iterNode := q }) := by
  induction post generalizing s with
  | nil =>
    have hq : s.iterNode = q := h
    rw [← hq]
    rfl
  | cons x post ih =>
    obtain ⟨hx,hne,hrest⟩ := h
    have hiter : iterList s = (s.element x, { s with iterNode := s.links.next x }) := by
      rw [iterList, hx, if_neg hne]
    rw [List.length_cons, iterTimes, hiter, ih { s with iterNode := s.links.next x } hrest]
    rfl

theorem round_of_chain {s : State} {nodes : List Word} (h : Chain s nodes) (hhead : s.iterNode = s.links.head) :
    Round s (nodes.map s.element) := by
  obtain ⟨n,hn,hlen⟩ := size_spec ⟨nodes,h,rfl⟩ (by simpa using chain_bound h)
  refine ⟨n,{ s with iterNode := null },hn,hlen,?_,?_⟩
  · rw [hlen, List.length_map]
    exact iterTimes_linked nodes s (hhead ▸ h.linked)
  · rw [iterList, if_pos rfl]
    exact congrArg (Prod.mk null) (by rw [← hhead])

theorem iterList_returned {s : State} {nodes : List Word} (h : s.iterNode = null ∨ s.iterNode ∈ nodes) :
    (iterList s).1 = null ∨ (iterList s).1 ∈ nodes.map s.element := by
  rw [iterList]
  split
  · exact Or.inl rfl
  · rename_i hne
    exact Or.inr (List.mem_map_of_mem (h.resolve_left hne))

theorem sound_of_onChain {s : State} (h : OnChain s) : CursorSound s := by
  obtain ⟨nodes,hchain,hcursor⟩ := h
  refine ⟨nodes.map s.element,⟨nodes,hchain,rfl⟩,?_,iterList_returned hcursor,round_of_chain hchain,?_⟩
  · exact hcursor.imp_right (reachable_iff hchain s.iterNode).mpr
  · intro op hfresh
    obtain ⟨s',hs',-⟩ := perform_spec ⟨nodes,hchain,rfl⟩ (by simpa using chain_bound hchain) hfresh
    exact ⟨_,hs'⟩

/-! ## What each call does to the cursor -/

theorem iterList_onChain {s : State} (h : OnChain s) : OnChain (iterList s).2 := by
  obtain ⟨nodes,hchain,hcursor⟩ := h
  rw [iterList]
  split
  · exact ⟨nodes,⟨hchain.linked,hchain.nodup,hchain.allocated⟩,head_on_chain hchain⟩
  · rename_i hne
    obtain ⟨pre,post,rfl⟩ := List.append_of_mem (hcursor.resolve_left hne)
    refine ⟨pre ++ s.iterNode::post,⟨hchain.linked,hchain.nodup,hchain.allocated⟩,?_⟩
    obtain ⟨r,-,-,-,hpost⟩ := linked_append.mp hchain.linked
    cases post with
    | nil => exact Or.inl hpost
    | cons y post =>
      apply Or.inr
      rw [show s.links.next s.iterNode = y from hpost.1]
      simp

theorem addElement_iterNode {s s' : State} {fuel : ℕ} {element new : Word} {b : Bool}
    (h : addElement fuel element new s = some (b, s')) : s'.iterNode = s.iterNode ∨ s'.iterNode = new := by
  unfold addElement at h
  cases hlast : lastCell s fuel none with
  | none => simp [hlast] at h
  | some node =>
    simp only [hlast, Option.some.injEq, Prod.mk.injEq] at h
    obtain ⟨-,rfl⟩ := h
    cases node with
    | none => exact Or.inr rfl
    | some x => exact Or.inl rfl

theorem popLoop_iterNode (left : Node) {s s' : State} {e : Word} (fuel : ℕ) (nodePtr : Cell Word)
    (node elementIndex : Word) (h : popLoop left fuel nodePtr node elementIndex s = some (e, s')) :
    s' = s ∨ s'.iterNode = s'.links.head := by
  induction fuel generalizing nodePtr node elementIndex with
  | zero => simp [popLoop] at h
  | succ fuel ih =>
    rw [popLoop] at h
    split at h
    · simp only [Option.some.injEq, Prod.mk.injEq] at h
      exact Or.inl h.2.symm
    · split at h
      · simp only [Option.some.injEq, Prod.mk.injEq] at h
        obtain ⟨-,rfl⟩ := h
        exact Or.inr rfl
      · exact ih _ _ _ h

theorem popElement_iterNode {left : Node} {s s' : State} {e : Word} {fuel : ℕ} {elementIndex : Word}
    (h : popElement fuel elementIndex left s = some (e, s')) : s' = s ∨ s'.iterNode = s'.links.head := by
  rw [popElement] at h
  split at h
  · simp only [Option.some.injEq, Prod.mk.injEq] at h
    exact Or.inl h.2.symm
  · exact popLoop_iterNode left fuel none s.links.head elementIndex h

theorem removeElement_cases {s : State} {nodes : List Word} (element : Word) (h : Chain s nodes) :
    (removeElement (bound s) element s = some (false, s) ∧ ∀ x ∈ nodes, s.element x ≠ element) ∨
    ∃ before b after, nodes = before ++ b::after ∧ (∀ x ∈ before, s.element x ≠ element) ∧
      s.element b = element ∧ removeElement (bound s) element s =
        some (true, s.assign (cellAfter before) (s.links.next b)) :=
  removeLoop_cases element [] nodes (bound s) (chain_bound h) (by simp) s.links.head h.linked

/-! ## Runs -/

theorem firstHolding_iff {s : State} {before after : List Word} {b element : Word}
    (h : Chain s (before ++ b::after)) (hbefore : ∀ x ∈ before, s.element x ≠ element)
    (hb : s.element b = element) (node : Word) : FirstHolding s element node ↔ node = b := by
  have hfind : ∀ {pre : List Word} (post : List Word) {x : Word}, (∀ y ∈ pre, s.element y ≠ element) →
      s.element x = element → (pre ++ x::post).find? (fun y => decide (s.element y = element)) = some x := by
    intro pre post x hpre hx
    rw [List.find?_eq_some_iff_append]
    exact ⟨decide_eq_true hx,pre,post,rfl,fun y hy => by simpa using hpre y hy⟩
  constructor
  · rintro ⟨hne,path,hpath,hfirst,hholds⟩
    obtain ⟨rest,hsplit⟩ := linked_split h.linked hpath hne
    have hfound := hfind after hbefore hb
    rw [hsplit, hfind rest hfirst hholds] at hfound
    exact Option.some.inj hfound
  · rintro rfl
    obtain ⟨r,hpath,hr,hne,-⟩ := linked_append.mp h.linked
    exact ⟨hne,before,hr ▸ hpath,hbefore,hb⟩

theorem change_step {s s' : State} {op : Op} (h : step s (.change op) = some s') :
    Fresh s op ∧ ∃ v, perform (bound s) s op = some (v, s') := by
  rw [step] at h
  split at h
  · rename_i hfresh
    obtain ⟨⟨v,t⟩,hr,rfl⟩ := Option.map_eq_some_iff.mp h
    exact ⟨hfresh,v,hr⟩
  · simp at h

theorem remove_step {s s' : State} {nodes : List Word} {element : Word} (h : Chain s nodes)
    (hs : step s (.change (.remove element)) = some s') :
    (s' = s ∧ ∀ x ∈ nodes, s.element x ≠ element) ∨
    ∃ before b after, nodes = before ++ b::after ∧ (∀ x ∈ before, s.element x ≠ element) ∧
      s.element b = element ∧ s' = s.assign (cellAfter before) (s.links.next b) := by
  obtain ⟨-,v,hv⟩ := change_step hs
  rw [perform] at hv
  rcases removeElement_cases element h with ⟨hr,hall⟩ | ⟨before,b,after,hsplit,hbefore,hb,hr⟩
  · rw [hr] at hv
    exact Or.inl ⟨(congrArg Prod.snd (Option.some.inj hv)).symm,hall⟩
  · rw [hr] at hv
    exact Or.inr ⟨before,b,after,hsplit,hbefore,hb,(congrArg Prod.snd (Option.some.inj hv)).symm⟩

theorem add_onChain {s s' : State} {element new : Word} (h : OnChain s)
    (hs : step s (.change (.add element new)) = some s') : OnChain s' := by
  obtain ⟨nodes,hchain,hcursor⟩ := h
  obtain ⟨hfresh,v,hv⟩ := change_step hs
  obtain ⟨t,ht,hchain',-⟩ := add_spec element hchain (chain_bound hchain) hfresh.1 hfresh.2
  rw [perform, ht] at hv
  obtain rfl : t = s' := congrArg Prod.snd (Option.some.inj hv)
  refine ⟨nodes ++ [new],hchain',?_⟩
  rcases addElement_iterNode ht with he | he
  · rw [he]
    exact hcursor.imp_right (List.mem_append_left [new])
  · rw [he]
    exact Or.inr (by simp)

theorem pop_onChain {s s' : State} {elementIndex : Word} {left : Node} (h : OnChain s)
    (hs : step s (.change (.pop elementIndex left)) = some s') : OnChain s' := by
  obtain ⟨nodes,hchain,hcursor⟩ := h
  obtain ⟨-,v,hv⟩ := change_step hs
  obtain ⟨t,ht,nodes',hchain',-⟩ := pop_spec left hchain (chain_bound hchain)
  rw [ht] at hv
  obtain rfl : t = s' := congrArg Prod.snd (Option.some.inj hv)
  obtain ⟨⟨e,t'⟩,hr,he⟩ := Option.map_eq_some_iff.mp ht
  obtain rfl : t' = t := congrArg Prod.snd he
  rcases popElement_iterNode hr with rfl | hhead
  · exact ⟨nodes,hchain,hcursor⟩
  · refine ⟨nodes',hchain',?_⟩
    rw [hhead]
    exact head_on_chain hchain'

theorem remove_onChain {s s' : State} {element : Word} (h : OnChain s) (hc : SparesCursor s (.change (.remove element)))
    (hs : step s (.change (.remove element)) = some s') : OnChain s' := by
  obtain ⟨nodes,hchain,hcursor⟩ := h
  rcases remove_step hchain hs with ⟨rfl,-⟩ | ⟨before,b,after,rfl,hbefore,hb,rfl⟩
  · exact ⟨nodes,hchain,hcursor⟩
  · have hne : s.iterNode ≠ b := fun he => hc ((firstHolding_iff hchain hbefore hb _).mpr he)
    refine ⟨before ++ after,unlink_chain hchain,hcursor.imp_right fun hm => ?_⟩
    rcases List.mem_append.mp hm with hm | hm
    · exact List.mem_append_left after hm
    · exact List.mem_append_right before ((List.mem_cons.mp hm).resolve_left hne)

/-- A call that may take any node but the cursor's keeps the cursor on the
list. -/
theorem step_onChain {s s' : State} {c : Call} (h : OnChain s) (hc : SparesCursor s c) (hs : step s c = some s') :
    OnChain s' := by
  cases c with
  | iter =>
    rw [← Option.some.inj hs]
    exact iterList_onChain h
  | change op =>
    cases op with
    | add element new => exact add_onChain h hs
    | pop elementIndex left => exact pop_onChain h hs
    | remove element => exact remove_onChain h hc hs

theorem unlink_cursor_lost {s : State} {before after : List Word} {b : Word} (h : Chain s (before ++ b::after)) :
    ¬ Reachable (s.assign (cellAfter before) (s.links.next b)) b := by
  rw [reachable_iff (unlink_chain h) b]
  have hnodup := h.nodup
  rw [List.nodup_middle, List.nodup_cons] at hnodup
  exact hnodup.1

/-- Removing the node under the cursor leaves the cursor on no node. -/
theorem step_loses_cursor {s s' : State} {c : Call} (h : OnChain s) (hc : ¬ SparesCursor s c)
    (hs : step s c = some s') : ¬ CursorSound s' := by
  obtain ⟨nodes,hchain,-⟩ := h
  cases c with
  | iter => exact absurd trivial hc
  | change op =>
    cases op with
    | add element new => exact absurd trivial hc
    | pop elementIndex left => exact absurd trivial hc
    | remove element =>
      have hfirst : FirstHolding s element s.iterNode := not_not.mp hc
      rcases remove_step hchain hs with ⟨-,hall⟩ | ⟨before,b,after,rfl,hbefore,hb,rfl⟩
      · obtain ⟨hne,path,hpath,-,hholds⟩ := hfirst
        exact absurd hholds (hall _ ((reachable_iff hchain _).mp ⟨hne,path,hpath⟩))
      · have hcursor := (firstHolding_iff hchain hbefore hb _).mp hfirst
        rintro ⟨l,hsound⟩
        rcases hsound.cursor with hnull | hreach
        · exact hfirst.1 hnull
        · have hb : Reachable (s.assign (cellAfter before) (s.links.next b)) s.iterNode := hreach
          rw [hcursor] at hb
          exact unlink_cursor_lost hchain hb

/-- The cursor of an initialised list stays on the list throughout a run
precisely when no call of the run removes the node it stands on. -/
theorem cursor_sound_iff (calls : List Call) (s : State) :
    Transition.Always step CursorSound calls (initializeList s) ↔
      Transition.Guarded step SparesCursor calls (initializeList s) := by
  apply Transition.always_iff_guarded OnChain
  · exact fun t => sound_of_onChain
  · exact fun t c t' => step_onChain
  · exact fun t c t' => step_loses_cursor
  · exact ⟨[],⟨rfl,List.nodup_nil,by simp⟩,Or.inl rfl⟩

theorem cursor_lost : ¬ Transition.Always step CursorSound
    [.change (.add 7#32 0xC0800010#32), .change (.remove 7#32)] (initializeList blank) := by
  intro h
  obtain ⟨l,hsound⟩ := (h.2 _ rfl).2 _ rfl
  rcases hsound.cursor with hnull | ⟨hne,path,hpath⟩
  · exact absurd hnull (by decide)
  · cases path with
    | nil => exact hne hpath.symm
    | cons x path => exact hpath.2.1 hpath.1.symm

end MikeOS.ListIterator
