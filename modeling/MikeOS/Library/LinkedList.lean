import Mathlib.Data.List.Basic
import Mathlib.Tactic

/-!
# Singly linked lists in memory

A head pointer and a `next` field for every address. A place that holds a
pointer is a cell: the head, or the `next` field of a node. `Linked p l q`
says that the nodes visited from `p` on are exactly `l` and that the pointer
after them is `q`.
-/

set_option autoImplicit false

namespace LinkedList

variable {α : Type*}

structure Pointers (α : Type*) where
  head : α
  next : α → α

abbrev Cell (α : Type*) := Option α

def load (s : Pointers α) : Cell α → α
  | none => s.head
  | some x => s.next x

def store [DecidableEq α] (s : Pointers α) (c : Cell α) (v : α) : Pointers α :=
  match c with
  | none => { s with head := v }
  | some x => { s with next := Function.update s.next x v }

def cellAfter (l : List α) : Cell α := l.getLast?

@[simp] theorem cellAfter_snoc (l : List α) (x : α) : cellAfter (l ++ [x]) = some x :=
  List.getLast?_append_of_ne_nil l (by simp)

def Linked (null : α) (next : α → α) : α → List α → α → Prop
  | p, [], q => p = q
  | p, x::l, q => p = x ∧ x ≠ null ∧ Linked null next (next x) l q

variable {null : α} {next : α → α}

theorem linked_append {p q : α} {l m : List α} :
    Linked null next p (l ++ m) q ↔ ∃ r, Linked null next p l r ∧ Linked null next r m q := by
  induction l generalizing p with
  | nil => simp [Linked]
  | cons x l ih => simp only [List.cons_append, Linked, ih, and_assoc, exists_and_left]

theorem linked_frame {next' : α → α} {p q : α} {l : List α} (h : Linked null next p l q)
    (he : ∀ x ∈ l, next' x = next x) : Linked null next' p l q := by
  induction l generalizing p with
  | nil => exact h
  | cons x l ih =>
    obtain ⟨hp,hx,hl⟩ := h
    refine ⟨hp,hx,?_⟩
    rw [he x (by simp)]
    exact ih hl (fun y hy => he y (by simp [hy]))

theorem linked_ne_null {p q : α} {l : List α} (h : Linked null next p l q) : ∀ x ∈ l, x ≠ null := by
  induction l generalizing p with
  | nil => simp
  | cons x l ih => exact List.forall_mem_cons.mpr ⟨h.2.1,ih h.2.2⟩

/-- A path to a node is an initial part of the whole list. -/
theorem linked_split {p b : α} {l path : List α} (h : Linked null next p l null)
    (hb : Linked null next p path b) (hne : b ≠ null) : ∃ rest, l = path ++ b::rest := by
  induction path generalizing p l with
  | nil =>
    cases l with
    | nil => exact absurd (hb.symm.trans h) hne
    | cons x l => exact ⟨l,by rw [List.nil_append, ← hb, h.1]⟩
  | cons y path ih =>
    obtain ⟨hp,hy,hpath⟩ := hb
    cases l with
    | nil => exact absurd (hp.symm.trans h) hy
    | cons x l =>
      obtain ⟨hx,-,hl⟩ := h
      have hxy : x = y := hx.symm.trans hp
      subst hxy
      obtain ⟨rest,hrest⟩ := ih hl hpath
      exact ⟨rest,by rw [hrest, List.cons_append]⟩

/-- Of two paths from one place, one is an initial part of the other. -/
theorem linked_prefix {p q r : α} {l m : List α} (hl : Linked null next p l q) (hm : Linked null next p m r) :
    l <+: m ∨ m <+: l := by
  induction l generalizing p m with
  | nil => exact Or.inl List.nil_prefix
  | cons x l ih =>
    cases m with
    | nil => exact Or.inr List.nil_prefix
    | cons y m =>
      obtain ⟨rfl,-,hl⟩ := hl
      obtain ⟨rfl,-,hm⟩ := hm
      exact (ih hl hm).imp (List.cons_prefix_cons.mpr ⟨rfl,·⟩) (List.cons_prefix_cons.mpr ⟨rfl,·⟩)

theorem linked_end {p q r : α} {l : List α} (hq : Linked null next p l q) (hr : Linked null next p l r) : q = r := by
  induction l generalizing p with
  | nil => exact hq.symm.trans hr
  | cons x l ih => exact ih hq.2.2 hr.2.2

/-- A path goes on behind an initial part only when that part ends at a node. -/
theorem linked_rest {p q r : α} {l m : List α} (hl : Linked null next p l q) (hm : Linked null next p (l ++ m) r) :
    Linked null next q m r := by
  obtain ⟨t,ht,hm⟩ := linked_append.mp hm
  rwa [linked_end hl ht]

theorem linked_null {l : List α} {q : α} (h : Linked null next null l q) : l = [] ∧ q = null := by
  cases l with
  | nil => exact ⟨rfl,h.symm⟩
  | cons x l => exact absurd h.1.symm h.2.1

theorem linked_unique {p : α} {l m : List α} (hl : Linked null next p l null) (hm : Linked null next p m null) :
    l = m := by
  rcases linked_prefix hl hm with ⟨rest,rfl⟩ | ⟨rest,rfl⟩
  · rw [(linked_null (linked_rest hl hm)).1, List.append_nil]
  · rw [(linked_null (linked_rest hm hl)).1, List.append_nil]

theorem load_cellAfter {s : Pointers α} {l : List α} {q : α}
    (h : Linked null s.next s.head l q) : load s (cellAfter l) = q := by
  rcases List.eq_nil_or_concat l with rfl | ⟨m,x,rfl⟩
  · exact h
  · rw [List.concat_eq_append] at h ⊢
    obtain ⟨r,-,-,-,hq⟩ := linked_append.mp h
    rw [cellAfter_snoc]
    exact hq

variable [DecidableEq α]

@[simp] theorem store_next_self (s : Pointers α) (x v : α) : (store s (some x) v).next x = v := by
  simp [store]

theorem store_next_ne (s : Pointers α) {x y : α} (v : α) (h : y ≠ x) :
    (store s (some x) v).next y = s.next y := by
  simp [store, Function.update_of_ne h]

theorem store_next_of_notMem {s : Pointers α} {l : List α} {v x : α} (hx : x ∉ l) :
    (store s (cellAfter l) v).next x = s.next x := by
  unfold cellAfter
  cases hl : l.getLast? with
  | none => rfl
  | some y =>
    exact store_next_ne s v (fun he => hx (he ▸ List.mem_of_getLast? hl))

theorem linked_store {s : Pointers α} {l : List α} {q v : α} (hn : l.Nodup)
    (h : Linked null s.next s.head l q) :
    Linked null (store s (cellAfter l) v).next (store s (cellAfter l) v).head l v := by
  rcases List.eq_nil_or_concat l with rfl | ⟨m,x,rfl⟩
  · rfl
  · rw [List.concat_eq_append] at *
    obtain ⟨r,hm,hr,hx,-⟩ := linked_append.mp h
    have hnot : x ∉ m := fun hxm => (List.disjoint_of_nodup_append hn) hxm (by simp)
    rw [cellAfter_snoc]
    refine linked_append.mpr ⟨r,?_,hr,hx,store_next_self s x v⟩
    exact linked_frame hm (fun y hy => store_next_ne s v (fun he => hnot (he ▸ hy)))

theorem linked_snoc {s : Pointers α} {l : List α} {b : α} (hn : l.Nodup) (hb : b ∉ l)
    (hnull : b ≠ null) (h : Linked null s.next s.head l null) :
    Linked null (store (store s (cellAfter l) b) (some b) null).next
      (store (store s (cellAfter l) b) (some b) null).head (l ++ [b]) null := by
  have hl := linked_store (v := b) hn h
  refine linked_append.mpr ⟨b,?_,rfl,hnull,store_next_self _ b null⟩
  exact linked_frame hl (fun y hy => store_next_ne _ null (fun he => hb (he ▸ hy)))

theorem linked_unlink {s : Pointers α} {l m : List α} {b q : α} (hn : (l ++ b::m).Nodup)
    (h : Linked null s.next s.head (l ++ b::m) q) :
    Linked null (store s (cellAfter l) (s.next b)).next (store s (cellAfter l) (s.next b)).head
      (l ++ m) q := by
  obtain ⟨r,hl,-,-,hm⟩ := linked_append.mp h
  have hdisj := List.disjoint_of_nodup_append hn
  refine linked_append.mpr ⟨s.next b,linked_store (List.Nodup.of_append_left hn) hl,?_⟩
  exact linked_frame hm (fun y hy => store_next_of_notMem (fun hyl => hdisj hyl (by simp [hy])))

theorem linked_cut {s : Pointers α} {l : List α} (b : α) (hn : l.Nodup)
    (h : Linked null s.next s.head l null) :
    ∃ m, m <+: l ∧ Linked null (store s (some b) null).next s.head m null := by
  by_cases hb : b ∈ l
  · obtain ⟨pre,post,rfl⟩ := List.append_of_mem hb
    obtain ⟨r,hpre,hr,hnull,-⟩ := linked_append.mp h
    have hnot : b ∉ pre := fun hp => (List.disjoint_of_nodup_append hn) hp (by simp)
    refine ⟨pre ++ [b],⟨post,by simp⟩,linked_append.mpr ⟨r,?_,hr,hnull,store_next_self s b null⟩⟩
    exact linked_frame hpre (fun x hx => store_next_ne s null (fun he => hnot (he ▸ hx)))
  · exact ⟨l,List.prefix_refl l,linked_frame h (fun x hx => store_next_ne s null (fun he => hb (he ▸ hx)))⟩

/-- Appending `b` to a list it may be on already: the list then ends at `b`. -/
theorem linked_push {s : Pointers α} {l : List α} {b : α} (hn : l.Nodup) (hnull : b ≠ null)
    (h : Linked null s.next s.head l null) :
    ∃ m, m.Nodup ∧ (∀ x ∈ m, x ∈ l ∨ x = b) ∧ Linked null (store (store s (cellAfter l) b) (some b) null).next
      (store (store s (cellAfter l) b) (some b) null).head m null := by
  by_cases hb : b ∈ l
  · have hstore := linked_store (v := b) hn h
    obtain ⟨pre,post,hl⟩ := List.append_of_mem hb
    rw [hl] at hn
    nth_rewrite 3 [hl] at hstore
    obtain ⟨r,hpre,hr,-⟩ := linked_append.mp hstore
    have hnot : b ∉ pre := fun hp => (List.disjoint_of_nodup_append hn) hp (by simp)
    refine ⟨pre ++ [b],hn.sublist (by simp),?_,linked_append.mpr ⟨r,?_,hr,hnull,store_next_self _ b null⟩⟩
    · rw [hl]
      simp only [List.mem_append, List.mem_cons, List.not_mem_nil, or_false]
      tauto
    · exact linked_frame hpre (fun x hx => store_next_ne _ null (fun he => hnot (he ▸ hx)))
  · refine ⟨l ++ [b],?_,by simp,linked_snoc hn hb hnull h⟩
    exact List.nodup_append.mpr ⟨hn,List.nodup_singleton b,fun x hx y hy he => hb (by
      rw [List.mem_singleton.mp hy] at he
      exact he ▸ hx)⟩

end LinkedList
