import Mathlib.Data.List.Basic
import Mathlib.Tactic

/-!
# Runs of a partial step function

A step either returns the next state or returns nothing. Properties of whole
runs are stated over every state the run passes through, and a guard is a
condition on the state a step is taken from. The rules below reduce both to
one step; no rule assumes that a run reaches its end.
-/

set_option autoImplicit false

namespace Transition

variable {σ α : Type*} (step : σ → α → Option σ)

def run : List α → σ → Option σ
  | [], s => some s
  | a::as, s => (step s a).bind (run as)

/-- `P` holds in the state a run starts from and in every state it passes. -/
def Always (P : σ → Prop) : List α → σ → Prop
  | [], s => P s
  | a::as, s => P s ∧ ∀ s', step s a = some s' → Always P as s'

/-- Every step of the run that returns meets `C` in the state it leaves. -/
def Guarded (C : σ → α → Prop) : List α → σ → Prop
  | [], _ => True
  | a::as, s => ∀ s', step s a = some s' → C s a ∧ Guarded C as s'

/-- Every step of the run meets `C` in the state it is taken from, whether it
returns or not. -/
def Met (C : σ → α → Prop) : List α → σ → Prop
  | [], _ => True
  | a::as, s => C s a ∧ ∀ s', step s a = some s' → Met C as s'

/-- The run ends in `t`, and every step of it meets `C`. -/
def Reaches (C : σ → α → Prop) : List α → σ → σ → Prop
  | [], s, t => s = t
  | a::as, s, t => ∃ s', step s a = some s' ∧ C s a ∧ Reaches C as s' t

@[simp] theorem run_nil (s : σ) : run step [] s = some s := rfl

@[simp] theorem run_cons (a : α) (as : List α) (s : σ) :
    run step (a::as) s = (step s a).bind (run step as) := rfl

theorem run_append (as bs : List α) (s : σ) : run step (as ++ bs) s = (run step as s).bind (run step bs) := by
  induction as generalizing s with
  | nil => rfl
  | cons a as ih => simp only [List.cons_append, run_cons, ih, Option.bind_assoc]

theorem always_head {P : σ → Prop} {as : List α} {s : σ} (h : Always step P as s) : P s := by
  cases as with
  | nil => exact h
  | cons => exact h.1

theorem always_run {P : σ → Prop} {as : List α} {s s' : σ}
    (h : Always step P as s) (hr : run step as s = some s') : P s' := by
  induction as generalizing s with
  | nil =>
    rw [run_nil, Option.some.injEq] at hr
    exact hr ▸ h
  | cons a as ih =>
    obtain ⟨t,ht,hr⟩ := Option.bind_eq_some_iff.mp hr
    exact ih (h.2 t ht) hr

variable {step}

/-- Invariant rule for guarded runs. -/
theorem always_of_guarded {Inv P : σ → Prop} {C : σ → α → Prop}
    (hP : ∀ s, Inv s → P s)
    (hstep : ∀ s a s', Inv s → C s a → step s a = some s' → Inv s')
    {as : List α} {s : σ} (hs : Inv s) (hg : Guarded step C as s) : Always step P as s := by
  induction as generalizing s with
  | nil => exact hP s hs
  | cons a as ih =>
    refine ⟨hP s hs,fun s' h => ?_⟩
    obtain ⟨hc,hg⟩ := hg s' h
    exact ih (hstep s a s' hs hc h) hg

theorem guarded_append {C : σ → α → Prop} {as bs : List α} {s : σ} :
    Guarded step C (as ++ bs) s ↔ Guarded step C as s ∧ ∀ t, run step as s = some t → Guarded step C bs t := by
  induction as generalizing s with
  | nil => exact ⟨fun h => ⟨trivial,fun t ht => Option.some.inj ht ▸ h⟩,fun h => h.2 s rfl⟩
  | cons a as ih =>
    constructor
    · intro h
      refine ⟨fun s' hs' => ⟨(h s' hs').1,(ih.mp (h s' hs').2).1⟩,fun t ht => ?_⟩
      obtain ⟨s',hs',ht⟩ := Option.bind_eq_some_iff.mp ht
      exact (ih.mp (h s' hs').2).2 t ht
    · rintro ⟨h,hrest⟩ s' hs'
      refine ⟨(h s' hs').1,ih.mpr ⟨(h s' hs').2,fun t ht => hrest t ?_⟩⟩
      rw [run_cons, hs', Option.bind_some, ht]

/-- A guard with a condition on the actions that all of them meet. -/
theorem guarded_and {C : σ → α → Prop} {Q : α → Prop} {as : List α} {s : σ} (h : Guarded step C as s)
    (hq : ∀ a ∈ as, Q a) : Guarded step (fun s a => C s a ∧ Q a) as s := by
  induction as generalizing s with
  | nil => trivial
  | cons a as ih =>
    exact fun s' hs' => ⟨⟨(h s' hs').1,hq a List.mem_cons_self⟩,
      ih (h s' hs').2 fun x hx => hq x (List.mem_cons_of_mem _ hx)⟩

theorem reaches_run {C : σ → α → Prop} {as : List α} {s t : σ} (h : Reaches step C as s t) : run step as s = some t := by
  induction as generalizing s with
  | nil => exact congrArg some h
  | cons a as ih =>
    obtain ⟨s',hs',-,hrest⟩ := h
    rw [run_cons, hs', Option.bind_some, ih hrest]

theorem reaches_append {C : σ → α → Prop} {as bs : List α} {s t u : σ} (h : Reaches step C as s t)
    (h' : Reaches step C bs t u) : Reaches step C (as ++ bs) s u := by
  induction as generalizing s with
  | nil => exact (show s = t from h) ▸ h'
  | cons a as ih =>
    obtain ⟨s',hs',hc,hrest⟩ := h
    exact ⟨s',hs',hc,ih hrest⟩

theorem reaches_guarded {C : σ → α → Prop} {as : List α} {s t : σ} (h : Reaches step C as s t) :
    Guarded step C as s := by
  induction as generalizing s with
  | nil => trivial
  | cons a as ih =>
    obtain ⟨s',hs',hc,hrest⟩ := h
    intro s'' hs''
    rw [hs', Option.some.injEq] at hs''
    exact ⟨hc,hs'' ▸ ih hrest⟩

theorem met_of_forall {C : α → Prop} {as : List α} (h : ∀ a ∈ as, C a) (s : σ) : Met step (fun _ => C) as s := by
  induction as generalizing s with
  | nil => trivial
  | cons a as ih =>
    obtain ⟨ha,hrest⟩ := List.forall_mem_cons.mp h
    exact ⟨ha,fun s' _ => ih hrest s'⟩

/-- Invariant rule for runs whose steps all preserve the invariant. -/
theorem always_of_invariant {I P : σ → Prop} (hP : ∀ s, I s → P s)
    (hstep : ∀ s a s', I s → step s a = some s' → I s')
    (as : List α) {s : σ} (hs : I s) : Always step P as s := by
  induction as generalizing s with
  | nil => exact hP s hs
  | cons a as ih => exact ⟨hP s hs,fun s' h => ih (hstep s a s' hs h)⟩

/-- When a step taken against its guard always leaves `P`, the guard is exact:
a run keeps `P` throughout precisely when all of its steps meet the guard. -/
theorem always_iff_guarded (Inv : σ → Prop) {P : σ → Prop} {C : σ → α → Prop}
    (hP : ∀ s, Inv s → P s)
    (hstep : ∀ s a s', Inv s → C s a → step s a = some s' → Inv s')
    (hbad : ∀ s a s', Inv s → ¬ C s a → step s a = some s' → ¬ P s')
    (as : List α) {s : σ} (hs : Inv s) : Always step P as s ↔ Guarded step C as s := by
  constructor
  · intro h
    induction as generalizing s with
    | nil => trivial
    | cons a as ih =>
      intro s' hs'
      have hrest := h.2 s' hs'
      have hc : C s a := by
        by_contra hc
        exact hbad s a s' hs hc hs' (always_head step hrest)
      exact ⟨hc,ih (hstep s a s' hs hc hs') hrest⟩
  · exact always_of_guarded hP hstep hs

end Transition
