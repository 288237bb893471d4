import TensorDiagram.Proofs.LinearUse
import TensorDiagram.Proofs.StatementTrees

/-!
# Temporaries are used once

Lowering an expression defines temporaries.  Seen from the objects that are still to be read, a
definition takes away those on its right hand side and puts its temporary in their place (`Emits`).
So what the definitions read and what is left to be read is, counted with multiplicities, what was
there and the temporaries (`Defines`): each temporary is read once, after its definition.

Hence lowering rewrites the statements of a program in good order
(`IsTree.lowerStatements_rewrites`).
-/

open TensorDiagram.Circle (PairContraction)

namespace TensorDiagram

namespace Diagram

variable {e e' : Emission} {target : WantedOrder} {d s x : Diagram} {t : Multiset ObjectRef}
  {table : HandleTable}

/-! ## Definitions of temporaries -/

/-- The objects of the references of an expression. -/
def objectBag (d : Diagram) : Multiset ObjectRef :=
  (d.tensors.map TensorRef.object : List ObjectRef)

theorem objectBag_pair (a b : Diagram) : (pair a b).objectBag = a.objectBag + b.objectBag := by
  simp [objectBag, tensors, listTensors]

theorem objectBag_sum_nil (sign : Sign) (a : Diagram) :
    (sum sign a []).objectBag = a.objectBag := by
  simp [objectBag, tensors, termTensors]

theorem objectBag_sum_snoc (sign next : Sign) (a d : Diagram) (rest : List (Sign × Diagram)) :
    (sum sign a (rest ++ [(next, d)])).objectBag = (sum sign a rest).objectBag + d.objectBag := by
  simp [objectBag, tensors, termTensors_eq]

/-- Definitions of temporaries are emitted.  Each of them reads some of the objects that are to be
read, and its temporary is to be read instead. -/
inductive Emits : Emission → Multiset ObjectRef → Emission → Multiset ObjectRef → Prop
  /-- Nothing is emitted. -/
  | refl (e : Emission) (s : Multiset ObjectRef) : Emits e s e s
  /-- One more temporary is defined. -/
  | define {e e' : Emission} {s t : Multiset ObjectRef} {rhs : Diagram}
      (h : Emits e s e' (rhs.objectBag + t)) (left right : List Index) :
      Emits e s (e'.define rhs left right).2 ((e'.define rhs left right).1.objectBag + t)

namespace Emits

variable {e e' e'' : Emission} {s t u : Multiset ObjectRef}

theorem trans (h : Emits e s e' t) (h' : Emits e' t e'' u) : Emits e s e'' u := by
  induction h' with
  | refl => exact h
  | define _ left right ih => exact (ih h).define left right

/-- Other objects stay to be read. -/
theorem frame (h : Emits e s e' t) (u : Multiset ObjectRef) : Emits e (s + u) e' (t + u) := by
  induction h with
  | refl => exact .refl _ _
  | define _ left right ih =>
    rw [add_assoc] at ih ⊢
    exact ih.define left right

/-- Objects that are to be read in two places. -/
theorem add {s' t' : Multiset ObjectRef} (h : Emits e s e' t) (h' : Emits e' s' e'' t') :
    Emits e (s + s') e'' (t + t') := by
  refine (h.frame s').trans ?_
  rw [add_comm t, add_comm t]
  exact h'.frame t

theorem single (e : Emission) (rhs : Diagram) (left right : List Index) :
    Emits e rhs.objectBag (e.define rhs left right).2 (e.define rhs left right).1.objectBag := by
  have h : Emits e rhs.objectBag e (rhs.objectBag + 0) := by
    rw [add_zero]
    exact .refl _ _
  have hdefine := h.define left right
  rwa [add_zero] at hdefine

end Emits

theorem asGeneral_emits (h : d.asGeneral target e = (x, e')) :
    Emits e d.objectBag e' x.objectBag := by
  rw [asGeneral] at h
  split_ifs at h
  · obtain ⟨rfl, rfl⟩ := Prod.mk.inj h
    exact .refl _ _
  · have hdefine := Emits.single e d target.left target.right
    rwa [h] at hdefine

/-- Joining two lowered factors reads the objects of both. -/
theorem JoinsTo.emits {c : PairContraction Index} {a b z : Diagram}
    (h : JoinsTo target c e a b z e') : Emits e (pair a b).objectBag e' z.objectBag := by
  have hfactors : ∀ {e₁ e₂ : Emission} {x y p q : Diagram} {k : PairContraction Index},
      a.asGeneral c.firstTarget e = (x, e₁) → b.asGeneral c.secondTarget e₁ = (y, e₂) →
      (p = x ∧ q = y ∧ k = c) ∨ (p = y ∧ q = x ∧ k = c.swap) →
      Emits e (pair a b).objectBag e₂ (pair p q).objectBag := by
    intro e₁ e₂ x y p q k hx hy hpq
    have hxy := (asGeneral_emits hx).add (asGeneral_emits hy)
    rcases hpq with ⟨rfl, rfl, -⟩ | ⟨rfl, rfl, -⟩
    · rwa [objectBag_pair, objectBag_pair]
    · rwa [objectBag_pair, objectBag_pair, add_comm p.objectBag]
  cases h with
  | scaledTemporary => exact .single _ _ _ _
  | scaled => exact .refl _ _
  | contractedTemporary _ hx hy hpq => exact (hfactors hx hy hpq).trans (.single _ _ _ _)
  | contracted _ _ hx hy hpq => exact hfactors hx hy hpq

/-- Lowering an expression reads its objects. -/
theorem LowersTo.emits (h : LowersTo target e d x e') : Emits e d.objectBag e' x.objectBag := by
  induction h with
  | scalar => exact .refl _ _
  | general => exact .refl _ _
  | traced => exact .single _ _ _ _
  | sumFirst _ ih => rwa [objectBag_sum_nil, objectBag_sum_nil]
  | sumNext _ _ ihsum ihd =>
    rw [objectBag_sum_snoc, objectBag_sum_snoc]
    exact ihsum.add ihd
  | pair hd _ _ _ _ hjoin iha ihb =>
    have hxy := iha.add ihb
    rw [← objectBag_pair, ← objectBag_pair] at hxy
    rcases hd with rfl | rfl
    · exact hxy.trans hjoin.emits
    · rw [objectBag_pair, add_comm, ← objectBag_pair]
      exact hxy.trans hjoin.emits

/-- A lowered expression is an expression. -/
theorem LowersTo.isExpression (h : LowersTo target e d x e') (hd : d.IsNormal) :
    x.isExpression = true := by
  cases h with
  | scalar => exact hd.isExpression_eq
  | general => exact hd.isExpression_eq
  | traced => rfl
  | sumFirst => rfl
  | sumNext => rfl
  | pair _ _ _ _ _ hjoin => cases hjoin <;> rfl

/-- Definitions of temporaries `hs` that read objects among `s` and leave the objects `t` to be
read. -/
structure Defines (s : Multiset ObjectRef) (hs : List Handle) (definitions : List Diagram)
    (t : Multiset ObjectRef) : Prop where
  /-- Only temporaries are defined. -/
  kind : ∀ h ∈ hs, h.kind = .temporary
  /-- All statements are definitions. -/
  isDefinition : ∀ x ∈ definitions, ∃ t rhs, x = assign (ref t) rhs true
  /-- Each temporary is written once. -/
  writes_eq : definitions.flatMap writes = hs.map .handle
  /-- What is read and what is left to be read is what was there and the temporaries. -/
  balance : ((definitions.flatMap reads : List ObjectRef) : Multiset ObjectRef) + t =
    s + (hs.map .handle : List ObjectRef)
  /-- Temporaries are read after their definitions. -/
  closed : ∀ {known}, (∀ o ∈ s, o ∈ known) → ClosedFrom reads known definitions

theorem Defines.mem_of_mem {s : Multiset ObjectRef} {hs : List Handle} {definitions : List Diagram}
    (h : Defines s hs definitions t) {o : ObjectRef} (ho : o ∈ t) :
    o ∈ s ∨ o ∈ definitions.flatMap writes := by
  have hmem : o ∈ s + ((hs.map .handle : List ObjectRef) : Multiset ObjectRef) := by
    rw [← h.balance]
    exact Multiset.mem_add.mpr (Or.inr ho)
  rw [h.writes_eq]
  exact (Multiset.mem_add.mp hmem).imp_right Multiset.mem_coe.mp

/-- What is emitted defines temporaries. -/
theorem Emits.exists_defines {s : Multiset ObjectRef} (h : Emits e s e' t) :
    ∃ hs definitions, e'.definitions = e.definitions ++ definitions ∧ e.table.Grows hs e'.table ∧
      Defines s hs definitions t := by
  induction h with
  | refl =>
    exact ⟨[], [], (List.append_nil _).symm, .refl _,
      ⟨by simp, by simp, rfl, by simp, fun _ => trivial⟩⟩
  | @define e' s t rhs _ left right ih =>
    obtain ⟨hs, definitions, heq, hgrows, hdefines⟩ := ih
    have hlast : ∀ o ∈ rhs.tensors.map TensorRef.object, o ∈ s ∨ o ∈ definitions.flatMap writes :=
      fun o ho =>
      hdefines.mem_of_mem (Multiset.mem_add.mpr (Or.inl (Multiset.mem_coe.mpr ho)))
    refine ⟨hs ++ [e'.table.next .temporary],
      definitions ++ [assign (e'.define rhs left right).1 rhs true], ?_,
      hgrows.create .temporary none, ⟨?_, ?_, ?_, ?_, ?_⟩⟩
    · rw [Emission.define_definitions, heq, List.append_assoc]
    · exact List.forall_mem_append.mpr ⟨hdefines.kind, by simp [HandleTable.next]⟩
    · exact List.forall_mem_append.mpr ⟨hdefines.isDefinition, by simp [Emission.define_fst]⟩
    · rw [List.flatMap_append, hdefines.writes_eq, List.map_append]
      rfl
    · have hbalance :=
        congrArg (· + ({.handle (e'.table.next .temporary)} : Multiset ObjectRef)) hdefines.balance
      simp only [List.flatMap_append, List.flatMap_singleton, List.map_append, List.map_singleton,
        ← Multiset.coe_add, Multiset.coe_singleton, ← add_assoc, ← hbalance, reads]
      change _ + _ + {ObjectRef.handle (e'.table.next .temporary)} + t = _ + rhs.objectBag + t + _
      exact add_right_comm _ _ _
    · intro known hknown
      refine closedFrom_append.mpr ⟨hdefines.closed hknown, fun o ho => ?_, trivial⟩
      exact List.mem_append.mpr ((hlast o ho).imp_left (hknown o))

/-- A statement becomes definitions of temporaries and a statement that reads what is left. -/
theorem Defines.rewrites {final : Diagram} {hs : List Handle} {definitions : List Diagram}
    (h : Defines (s.reads : List ObjectRef) hs definitions t)
    (hreads : (final.reads : Multiset ObjectRef) = t) (hwrites : final.writes = s.writes)
    (hkind : s.WritesByKind → final.WritesByKind) :
    Rewrites reads [s] hs (definitions ++ [final]) := by
  refine .of_statement ?_ ?_ ?_ ?_
  · intro known hknown
    refine closedFrom_append.mpr ⟨h.closed hknown, fun o ho => ?_, trivial⟩
    have ho' : o ∈ t := by rwa [← hreads, Multiset.mem_coe]
    exact List.mem_append.mpr ((h.mem_of_mem ho').imp_left fun hs => hknown hs)
  · rw [List.flatMap_append, List.flatMap_singleton, h.writes_eq, hwrites]
  · intro hnone
    have hbalance := h.balance
    rw [← hreads, Multiset.coe_add, Multiset.coe_add, Multiset.coe_eq_coe] at hbalance
    have hperm : (handlesIn .temporary _).Perm (handlesIn .temporary _) := handlesIn_perm hbalance
    rw [handlesIn_append, handlesIn_append, hnone, List.nil_append, handlesIn_map_handle] at hperm
    rwa [List.flatMap_append, List.flatMap_singleton, handlesIn_append]
  · intro hs
    refine List.forall_mem_append.mpr ⟨fun x hx k hk => ?_,
      List.forall_mem_singleton.mpr (hkind hs)⟩
    refine ⟨fun _ => h.isDefinition x hx, fun hbraiding => ?_⟩
    have hmem : ObjectRef.handle k ∈ definitions.flatMap writes := List.mem_flatMap.mpr ⟨x, hx, hk⟩
    rw [h.writes_eq, List.mem_map] at hmem
    obtain ⟨k', hk', heq⟩ := hmem
    obtain rfl := ObjectRef.handle.inj heq
    rw [h.kind k' hk'] at hbraiding
    cases hbraiding

/-! ## Lowering -/

theorem isTreePass_lowerStatements : IsTreePass lowerStatements lowerStatementList :=
  .of_eq (fun _ _ => rfl) (fun _ => rfl) fun _ _ _ => rfl

/-- A statement whose right hand side is lowered. -/
theorem IsNormal.rewritesWith_of_lower {rhs final : Diagram} (hrhs : rhs.IsNormal)
    (h : rhs.lower target ⟨table, []⟩ = .ok (x, e))
    (hreads : s.reads = rhs.tensors.map TensorRef.object)
    (hfinal : final.reads = x.tensors.map TensorRef.object) (hflat : final.flatten = [final])
    (hwrites : final.writes = s.writes) (hkind : s.WritesByKind → final.WritesByKind) :
    RewritesWith reads .temporary table [s] e.table (block (e.definitions ++ [final])).flatten := by
  obtain ⟨hs, definitions, hdefinitions, hgrows, hdefines⟩ := (hrhs.lowersTo h).emits.exists_defines
  have hout : (block (e.definitions ++ [final])).flatten = definitions ++ [final] := by
    rw [flatten, hdefinitions, List.nil_append]
    refine flattenList_eq_self
      (List.forall_mem_append.mpr ⟨fun y hy => ?_, List.forall_mem_singleton.mpr hflat⟩)
    obtain ⟨t, rhs, rfl⟩ := hdefines.isDefinition y hy
    rfl
  rw [objectBag, ← hreads] at hdefines
  rw [hout]
  exact ⟨hs, hgrows, hdefines.kind, hdefines.rewrites (congrArg _ hfinal) hwrites hkind⟩

/-- Lowering a statement. -/
theorem IsStatement.lowerStatements_rewrites {s' : Diagram} {table' : HandleTable}
    (hs : s.IsStatement IsPrepared) (h : s.lowerStatements table = .ok (s', table')) :
    RewritesWith reads .temporary table s.flatten table' s'.flatten := by
  rw [hs.flatten_eq]
  cases hs with
  | @assign rhs lhs isDefinition hrhs =>
    rw [lowerStatements, lowerAssignment] at h
    split_ifs at h with htensor
    · obtain ⟨⟨x, e⟩, hlower, h⟩ := bind_eq_ok_iff.mp h
      obtain ⟨rfl, rfl⟩ := Prod.mk.inj (Except.ok.inj h)
      have hwrites : (Diagram.assign lhs x isDefinition).writes =
          (Diagram.assign lhs rhs isDefinition).writes := by
        cases lhs <;> rfl
      exact hrhs.1.rewritesWith_of_lower hlower rfl rfl rfl hwrites (WritesByKind.assign hwrites)
    · obtain ⟨rfl, rfl⟩ := Prod.mk.inj (Except.ok.inj h)
      exact .of_rewrites (.refl _)
  | expression hexpression hd =>
    by_cases htensor : s.isTensor = true
    · rw [hd.1.lowerStatements_eq htensor] at h
      obtain ⟨orders, -, h⟩ := bind_eq_ok_iff.mp h
      cases orders with
      | nil => cases h
      | cons order rest =>
        obtain ⟨⟨x, e⟩, hlower, h⟩ := bind_eq_ok_iff.mp h
        obtain ⟨rfl, rfl⟩ := Prod.mk.inj (Except.ok.inj h)
        have hx := (hd.1.lowersTo hlower).isExpression hd.1
        have hfinal : x.IsStatement fun _ => True := .expression hx trivial
        refine hd.1.rewritesWith_of_lower hlower (reads_of_isExpression hexpression)
          (reads_of_isExpression hx) hfinal.flatten_eq ?_ fun _ k hk => ?_
        · rw [writes_of_isExpression hx, writes_of_isExpression hexpression]
        · rw [writes_of_isExpression hx] at hk
          cases hk
    · have heq : s.lowerStatements table = s.lowerExpression table := by
        cases s <;> simp_all [isExpression, lowerStatements]
      rw [heq, lowerExpression, if_neg htensor] at h
      obtain ⟨rfl, rfl⟩ := Prod.mk.inj (Except.ok.inj h)
      rw [(IsStatement.expression hexpression hd).flatten_eq]
      exact .of_rewrites (.refl _)

/-- What is left of a program once its braidings are constructed: single statements, and regions
that are not to be changed. -/
def IsLowerable (s : Diagram) : Prop :=
  s.IsStatement IsPrepared ∨ ∃ statements, s = sealed statements

/-- Lowering the statements of a tree. -/
theorem IsTree.lowerStatements_rewrites {d' : Diagram} {table' : HandleTable}
    (hd : d.IsTree IsLowerable) (h : d.lowerStatements table = .ok (d', table')) :
    RewritesWith reads .temporary table d.flatten table' d'.flatten := by
  suffices hpass : d'.IsTree (fun _ => True) ∧
    RewritesWith reads .temporary table d.flatten table' d'.flatten from hpass.2
  refine hd.passes isTreePass_lowerStatements (fun _ => .of_rewrites .nil) (fun hxs hys =>
    hxs.append hys) ?_ h
  rintro s s' table table' (hs | ⟨statements, rfl⟩) h
  · exact ⟨.leaf trivial, hs.lowerStatements_rewrites h⟩
  · obtain ⟨rfl, rfl⟩ := Prod.mk.inj (Except.ok.inj h)
    exact ⟨.leaf trivial, .of_rewrites (.refl _)⟩

end Diagram

end TensorDiagram
