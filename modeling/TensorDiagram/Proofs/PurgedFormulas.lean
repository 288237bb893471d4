import TensorDiagram.Proofs.Citations
import TensorDiagram.Proofs.HiddenIndices
import TensorDiagram.Proofs.StrandIdentification

/-!
# Purged formulas

Purging drops the braidings from the products of a formula.  What remains of a factor may be nothing
at all: this is so for tangles, which are braidings and products of tangles.  A tangle that is no
factor of a product can not be dropped, and neither can a braiding whose strands are not joined.
Otherwise purging succeeds (`IsFormula.exists_remainder_iff`).

The references that remain are the other ones, in the same order.  Whether what remains has tensor
indices is another question, since a product may be left with nothing but scalars: it has them
exactly if the formula has them when its braidings do not count (`StaysTensor`).
-/

namespace TensorDiagram

variable {braidingName : String}

namespace TensorRef

/-- Both strands of a braiding are joined to themselves: it reads `τ[a, b; b, a]`. -/
def HasJoinedStrands (t : TensorRef) : Prop :=
  ∃ a b, t.left = [a, b] ∧ t.right = [b, a]

/-- The check of a braiding fails with an error of removal. -/
theorem checkRemovable_failsWith (t : TensorRef) :
    FailsWith (·.kind = .braidingRemoval) t.checkRemovable := by
  rw [checkRemovable]
  split
  · exact .ite _ (.ok ()) (.error rfl)
  · exact .error rfl

end TensorRef

namespace Diagram

variable {a b d x : Diagram} {t : TensorRef} {rest : List Diagram} {sign : Sign}

/-! ## Tangles and parts that are no factors -/

/-- Nothing but braidings, multiplied in any nesting. -/
inductive IsTangle (braidingName : String) : Diagram → Prop
  /-- A braiding, possibly under a conjugation. -/
  | braiding {d : Diagram} {t : TensorRef} (h : d.braidingTerm? braidingName = some t) :
      IsTangle braidingName d
  /-- A product of tangles. -/
  | product {a b : Diagram} {rest : List Diagram} (h : ∀ f ∈ a :: b :: rest,
      IsTangle braidingName f) : IsTangle braidingName (.product a b rest)

/-- The parts of a formula that are no factors of products, so that the products among them are the
maximal ones.  The formula itself is such a part if it is not regarded as a factor; a conjugated
reference has no parts. -/
inductive HasWhole (w : Diagram) : Bool → Diagram → Prop
  /-- The formula itself. -/
  | self : HasWhole w false w
  /-- What is conjugated. -/
  | conj {isFactor : Bool} {a : Diagram} (ha : ∀ t, a ≠ .ref t) (h : HasWhole w false a) :
      HasWhole w isFactor (.conj a)
  /-- A term of a sum. -/
  | term {isFactor : Bool} {sign : Sign} {a : Diagram} {rest : List (Sign × Diagram)}
      {z : Sign × Diagram} (hz : z ∈ (sign, a) :: rest) (h : HasWhole w false z.2) :
      HasWhole w isFactor (.sum sign a rest)
  /-- A part of a factor. -/
  | factor {isFactor : Bool} {a b : Diagram} {rest : List Diagram} {f : Diagram}
      (hf : f ∈ a :: b :: rest) (h : HasWhole w true f) : HasWhole w isFactor (.product a b rest)

/-- The formula itself, or one of the parts that it has as a factor. -/
theorem hasWhole_iff {w : Diagram} : HasWhole w false d ↔ w = d ∨ HasWhole w true d := by
  constructor
  · intro h
    cases h with
    | self => exact .inl rfl
    | conj ha h => exact .inr (.conj ha h)
    | term hz h => exact .inr (.term hz h)
    | factor hf h => exact .inr (.factor hf h)
  · rintro (rfl | h)
    · exact .self
    · cases h with
      | conj ha h => exact .conj ha h
      | term hz h => exact .term hz h
      | factor hf h => exact .factor hf h

/-- The formula has tensor indices even if its braidings do not count. -/
inductive StaysTensor (braidingName : String) : Diagram → Prop
  /-- A reference that is no braiding. -/
  | ref {t : TensorRef} (h : ¬ t.isBraiding braidingName = true) : StaysTensor braidingName (.ref t)
  /-- A conjugate. -/
  | conj {a : Diagram} (ha : StaysTensor braidingName a) : StaysTensor braidingName (.conj a)
  /-- A sum, of which all terms have such indices. -/
  | sum {sign : Sign} {a : Diagram} {rest : List (Sign × Diagram)}
      (h : ∀ z ∈ (sign, a) :: rest, StaysTensor braidingName z.2) :
      StaysTensor braidingName (.sum sign a rest)
  /-- A product, of which one factor has such indices. -/
  | product {a b : Diagram} {rest : List Diagram} {f : Diagram} (hf : f ∈ a :: b :: rest)
      (h : StaysTensor braidingName f) : StaysTensor braidingName (.product a b rest)

/-- A product is a tangle if all factors are. -/
theorem isTangle_product_iff :
    (product a b rest).IsTangle braidingName ↔ ∀ f ∈ a :: b :: rest, f.IsTangle braidingName := by
  refine ⟨fun h => ?_, .product⟩
  cases h with
  | braiding h => cases h
  | product h => exact h

/-- Only products and braidings are tangles. -/
theorem not_isTangle (hproduct : ∀ a b rest, d ≠ product a b rest)
    (hterm : d.braidingTerm? braidingName = none) : ¬ d.IsTangle braidingName := by
  intro htangle
  cases htangle with
  | braiding h => rw [hterm] at h; cases h
  | product => exact hproduct _ _ _ rfl

/-- A braiding does not stay. -/
theorem not_staysTensor_ref (h : t.isBraiding braidingName = true) :
    ¬ (ref t).StaysTensor braidingName := by
  intro hstays
  cases hstays with
  | ref hnone => exact hnone h

/-- A product stays a tensor if a factor does. -/
theorem staysTensor_product_iff :
    (product a b rest).StaysTensor braidingName ↔
      ∃ f ∈ a :: b :: rest, f.StaysTensor braidingName := by
  constructor
  · intro h
    cases h with
    | product hf h => exact ⟨_, hf, h⟩
  · rintro ⟨f, hf, h⟩
    exact .product hf h

/-- Conjugation does not matter for this. -/
theorem staysTensor_conj_iff : (conj a).StaysTensor braidingName ↔ a.StaysTensor braidingName := by
  refine ⟨fun h => ?_, .conj⟩
  cases h with
  | conj ha => exact ha

/-- A sum stays a tensor if all terms do. -/
theorem staysTensor_sum_iff {rest : List (Sign × Diagram)} :
    (sum sign a rest).StaysTensor braidingName ↔
      ∀ z ∈ (sign, a) :: rest, z.2.StaysTensor braidingName := by
  refine ⟨fun h => ?_, .sum⟩
  cases h with
  | sum h => exact h

/-- A sum has the references of its terms. -/
theorem tensors_sum (sign : Sign) (a : Diagram) (rest : List (Sign × Diagram)) :
    (sum sign a rest).tensors = ((sign, a) :: rest).flatMap fun z => z.2.tensors := by
  rw [tensors, termTensors_eq, List.flatMap_cons]

/-! ## What remains -/

/-- What remains of some factors once their braidings are dropped. -/
structure Remnants (braidingName : String) (xs ys : List Diagram) : Prop where
  /-- What remains are formulas. -/
  isFormula : ∀ y ∈ ys, y.IsFormula
  /-- All other references remain. -/
  tensors_eq : ys.flatMap tensors = (xs.flatMap tensors).filter fun t => !t.isBraiding braidingName
  /-- What remains has tensor indices if the factors have them without their braidings. -/
  isTensor_iff : (∃ y ∈ ys, y.isTensor = true) ↔ ∃ x ∈ xs, x.StaysTensor braidingName
  /-- Nothing remains of tangles, and something of everything else. -/
  eq_nil_iff : ys = [] ↔ ∀ x ∈ xs, x.IsTangle braidingName

/-- What is left of two lists. -/
theorem Remnants.append {xs xs' ys ys' : List Diagram} (h : Remnants braidingName xs ys)
    (h' : Remnants braidingName xs' ys') : Remnants braidingName (xs ++ xs') (ys ++ ys') where
  isFormula := List.forall_mem_append.mpr ⟨h.isFormula, h'.isFormula⟩
  tensors_eq := by
    rw [List.flatMap_append, List.flatMap_append, List.filter_append, h.tensors_eq, h'.tensors_eq]
  isTensor_iff := by
    simp only [List.mem_append, or_and_right, exists_or, h.isTensor_iff, h'.isTensor_iff]
  eq_nil_iff := by
    rw [List.append_eq_nil_iff, List.forall_mem_append, h.eq_nil_iff, h'.eq_nil_iff]

/-- What is left of many lists. -/
theorem remnants_flatMap {α β : Type} {f : α → List Diagram} {g : β → List Diagram}
    {xs : List α} {ys : List β}
    (h : List.Forall₂ (fun x y => Remnants braidingName (f x) (g y)) xs ys) :
    Remnants braidingName (xs.flatMap f) (ys.flatMap g) := by
  induction h with
  | nil => exact ⟨by simp, rfl, by simp, by simp⟩
  | cons hxy _ ih => exact hxy.append ih

/-- What is left of one formula. -/
theorem remnants_singleton_iff : Remnants braidingName [d] [x] ↔
    x.IsFormula ∧ (x.tensors = d.tensors.filter fun t => !t.isBraiding braidingName) ∧
      (x.isTensor = true ↔ d.StaysTensor braidingName) ∧ ¬ d.IsTangle braidingName := by
  constructor
  · rintro ⟨hformula, htensors, htensor, htangle⟩
    simp_all
  · rintro ⟨hformula, htensors, htensor, htangle⟩
    constructor <;> simp_all

/-- The product of what remains of its factors. -/
theorem Remnants.product {ys : List Diagram} (h : Remnants braidingName (a :: b :: rest) ys) :
    Remnants braidingName [product a b rest] (ofFactors? ys).toList := by
  have hproduct : Remnants braidingName [Diagram.product a b rest] ys := by
    refine ⟨h.isFormula, ?_, ?_, ?_⟩
    · rw [List.flatMap_singleton, tensors_product, h.tensors_eq]
    · rw [h.isTensor_iff, ← staysTensor_product_iff]
      simp
    · rw [h.eq_nil_iff, List.forall_mem_singleton, isTangle_product_iff]
  match ys with
  | [] => exact hproduct
  | [y] => exact hproduct
  | y :: y' :: ys =>
    have hys := hproduct.isFormula
    rw [List.forall_mem_cons, List.forall_mem_cons] at hys
    refine remnants_singleton_iff.mpr ⟨.product hys.1 hys.2.1 hys.2.2, ?_, ?_, ?_⟩
    · rw [tensors_product, hproduct.tensors_eq, List.flatMap_singleton]
    · rw [isTensor_product_iff, hproduct.isTensor_iff]
      simp
    · have hne := hproduct.eq_nil_iff.not.mp (List.cons_ne_nil _ _)
      simpa using hne

/-- The conjugate of what remains. -/
theorem Remnants.conj (hterm : (conj a).braidingTerm? braidingName = none)
    (h : Remnants braidingName [a] [x]) : Remnants braidingName [conj a] [conj x] := by
  obtain ⟨hformula, htensors, htensor, -⟩ := remnants_singleton_iff.mp h
  refine remnants_singleton_iff.mpr ⟨.conj hformula, htensors, ?_, not_isTangle (by simp) hterm⟩
  rw [isTensor, htensor, staysTensor_conj_iff]

/-- The sum of what remains of its terms. -/
theorem Remnants.sum {rest zs : List (Sign × Diagram)}
    (h : List.Forall₂ (fun z z' => Remnants braidingName [z.2] [z'.2]) ((sign, a) :: rest)
      ((sign, x) :: zs)) : Remnants braidingName [sum sign a rest] [sum sign x zs] := by
  have hparts := h.imp fun _ _ hz => remnants_singleton_iff.mp hz
  have hformula : ∀ z' ∈ (sign, x) :: zs, z'.2.IsFormula :=
    forall_mem_of_forall₂ (hparts.imp fun _ _ hz => hz.1)
  rw [List.forall_mem_cons] at hformula
  refine remnants_singleton_iff.mpr ⟨.sum hformula.1 hformula.2, ?_, ?_, not_isTangle (by simp) rfl⟩
  · rw [tensors_sum, tensors_sum]
    simpa [List.flatMap_assoc] using (remnants_flatMap h).tensors_eq
  · rw [isTensor_sum_iff, staysTensor_sum_iff]
    exact forall_mem_iff_of_forall₂ (hparts.imp fun _ _ hz => hz.2.2.1)

/-! ## The factors and terms that purging looks at -/

/-- Nothing is left of a braiding. -/
theorem remainder_braiding (h : d.braidingTerm? braidingName = some t) :
    d.remainder braidingName = (t.checkRemovable >>= fun _ => .ok none) := by
  obtain ⟨rfl | rfl, hbraiding⟩ := eq_of_braidingTerm? h
  · rw [remainder, if_pos hbraiding]
    rfl
  · rw [remainder, h]
    rfl

/-- What is left of a product. -/
theorem remainder_product (a b : Diagram) (rest : List Diagram) :
    (product a b rest).remainder braidingName = ((a :: b :: rest).mapM (remainder braidingName) >>=
      fun os => .ok (ofFactors? (os.flatMap Option.toList))) := by
  rw [remainder, factorRemainders_eq, List.mapM_cons, List.mapM_cons]
  rcases a.remainder braidingName with e | o
  · rfl
  rcases b.remainder braidingName with e | o'
  · rfl
  rcases rest.mapM (remainder braidingName) with e | os
  · rfl
  simp only [ok_bind, pure_bind, List.flatMap_cons, List.append_assoc]
  rfl

/-- What is left of a sum. -/
theorem remainder_sum (sign : Sign) (a : Diagram) (rest : List (Sign × Diagram)) :
    (sum sign a rest).remainder braidingName =
      (wholeOf braidingName a (a.remainder braidingName) >>= fun x =>
        rest.mapM (fun z => wholeOf braidingName z.2 (z.2.remainder braidingName) >>= fun d =>
            .ok (z.1, d)) >>= fun zs =>
          .ok (some (sum sign x zs))) := by
  rw [remainder, termRemainders_eq]
  rfl

/-- Nothing remains of a braiding. -/
theorem remnants_braiding (hterm : d.braidingTerm? braidingName = some t) {o : Option Diagram}
    (h : d.remainder braidingName = .ok o) : Remnants braidingName [d] o.toList := by
  rw [remainder_braiding hterm] at h
  obtain ⟨-, -, h⟩ := bind_eq_ok_iff.mp h
  obtain rfl := Except.ok.inj h
  have htangle : d.IsTangle braidingName := .braiding hterm
  obtain ⟨rfl | rfl, hbraiding⟩ := eq_of_braidingTerm? hterm
  · refine ⟨by simp, by simp [tensors, hbraiding], iff_of_false (by simp) ?_, by simp [htangle]⟩
    simpa using not_staysTensor_ref hbraiding
  · refine ⟨by simp, by simp [tensors, hbraiding], iff_of_false (by simp) ?_, by simp [htangle]⟩
    simpa [staysTensor_conj_iff] using not_staysTensor_ref hbraiding

/-- What remains of a formula. -/
theorem IsFormula.remnants (hd : d.IsFormula) {o : Option Diagram}
    (h : d.remainder braidingName = .ok o) : Remnants braidingName [d] o.toList := by
  induction hd generalizing o with
  | ref t =>
    by_cases hbraiding : t.isBraiding braidingName = true
    · exact remnants_braiding (d := .ref t) (t := t) (if_pos hbraiding) h
    · rw [remainder, if_neg hbraiding] at h
      obtain rfl := Except.ok.inj h
      refine remnants_singleton_iff.mpr ⟨.ref t, ?_, iff_of_true rfl (.ref hbraiding), ?_⟩
      · simp [tensors, hbraiding]
      · exact not_isTangle (by simp) (if_neg hbraiding)
  | scalar s =>
    obtain rfl := Except.ok.inj h
    refine remnants_singleton_iff.mpr ⟨.scalar s, rfl, iff_of_false (by simp [isTensor]) ?_,
      not_isTangle (by simp) rfl⟩
    rintro ⟨⟩
  | @conj a ha ih =>
    cases hterm : (Diagram.conj a).braidingTerm? braidingName with
    | some t => exact remnants_braiding hterm h
    | none =>
      rw [remainder_conj_of_none hterm] at h
      obtain ⟨x, hx, h⟩ := bind_eq_ok_iff.mp h
      obtain rfl := Except.ok.inj h
      exact (ih (wholeOf_eq_ok hx)).conj hterm
  | @sum sign a rest ha hrest iha ihrest =>
    rw [remainder_sum] at h
    obtain ⟨x, hx, h⟩ := bind_eq_ok_iff.mp h
    obtain ⟨zs, hzs, h⟩ := bind_eq_ok_iff.mp h
    obtain rfl := Except.ok.inj h
    refine .sum (.cons (iha (wholeOf_eq_ok hx)) ?_)
    refine ((List.forall₂_and_left rest zs).mpr ⟨ihrest, mapM_eq_ok_iff.mp hzs⟩).imp
      fun z z' hz => ?_
    obtain ⟨y, hy, hz'⟩ := bind_eq_ok_iff.mp hz.2
    obtain rfl := Except.ok.inj hz'
    exact hz.1 (wholeOf_eq_ok hy)
  | @product a b rest ha hb hrest iha ihb ihrest =>
    rw [remainder_product] at h
    obtain ⟨os, hos, h⟩ := bind_eq_ok_iff.mp h
    obtain rfl := Except.ok.inj h
    have hfactors : ∀ f ∈ a :: b :: rest, ∀ {o}, f.remainder braidingName = .ok o →
        Remnants braidingName [f] o.toList := forall_mem_factors iha ihb ihrest
    have hremnants :=
      remnants_flatMap (((List.forall₂_and_left _ os).mpr ⟨hfactors, mapM_eq_ok_iff.mp hos⟩).imp
      fun f o hf => hf.1 hf.2)
    rw [List.flatMap_singleton'] at hremnants
    exact hremnants.product

/-! ## When purging succeeds -/

/-- All braidings can be dropped: their strands are joined, and no part that is no factor is a
tangle. -/
structure IsClear (braidingName : String) (isFactor : Bool) (d : Diagram) : Prop where
  /-- The strands of all braidings are joined. -/
  joined : ∀ t ∈ d.tensors, t.isBraiding braidingName = true → t.HasJoinedStrands
  /-- Something remains of every part that is no factor. -/
  whole : ∀ w, HasWhole w isFactor d → ¬ w.IsTangle braidingName

/-- As a whole a formula must not be a tangle. -/
theorem isClear_false_iff :
    d.IsClear braidingName false ↔ d.IsClear braidingName true ∧ ¬ d.IsTangle braidingName := by
  constructor
  · intro h
    exact ⟨⟨h.joined, fun w hw => h.whole w (hasWhole_iff.mpr (.inr hw))⟩, h.whole d .self⟩
  · rintro ⟨h, htangle⟩
    refine ⟨h.joined, fun w hw => ?_⟩
    rcases hasWhole_iff.mp hw with rfl | hw
    · exact htangle
    · exact h.whole w hw

/-- A formula is clear if all its parts are. -/
theorem isClear_iff_forall {α : Type} {xs : List α} {part : α → Diagram} {isFactor : Bool}
    (htensors : d.tensors = xs.flatMap fun x => (part x).tensors)
    (hwhole : ∀ w, HasWhole w true d ↔ ∃ x ∈ xs, HasWhole w isFactor (part x)) :
    d.IsClear braidingName true ↔ ∀ x ∈ xs, (part x).IsClear braidingName isFactor := by
  constructor
  · intro h x hx
    refine ⟨fun t ht => h.joined t ?_, fun w hw => h.whole w ((hwhole w).mpr ⟨x, hx, hw⟩)⟩
    rw [htensors]
    exact List.mem_flatMap.mpr ⟨x, hx, ht⟩
  · intro h
    constructor
    · intro t ht
      rw [htensors] at ht
      obtain ⟨x, hx, ht⟩ := List.mem_flatMap.mp ht
      exact (h x hx).joined t ht
    · intro w hw
      obtain ⟨x, hx, hw⟩ := (hwhole w).mp hw
      exact (h x hx).whole w hw

/-- A product is clear if its factors are. -/
theorem isClear_product_iff :
    (product a b rest).IsClear braidingName true ↔
      ∀ f ∈ a :: b :: rest, f.IsClear braidingName true := by
  refine isClear_iff_forall (tensors_product a b rest) fun w => ⟨fun h => ?_, ?_⟩
  · cases h with
    | factor hf h => exact ⟨_, hf, h⟩
  · rintro ⟨f, hf, h⟩
    exact .factor hf h

/-- A sum is clear if its terms are, as wholes. -/
theorem isClear_sum_iff {rest : List (Sign × Diagram)} :
    (sum sign a rest).IsClear braidingName true ↔
      ∀ z ∈ (sign, a) :: rest, z.2.IsClear braidingName false := by
  refine isClear_iff_forall (tensors_sum sign a rest) fun w => ⟨fun h => ?_, ?_⟩
  · cases h with
    | term hz h => exact ⟨_, hz, h⟩
  · rintro ⟨z, hz, h⟩
    exact .term hz h

/-- A formula without parts is clear if the strands of its braidings are joined. -/
theorem isClear_iff_joined (h : ∀ w, ¬ HasWhole w true d) :
    d.IsClear braidingName true ↔ ∀ t ∈ d.tensors, t.isBraiding braidingName = true →
      t.HasJoinedStrands :=
  ⟨fun hd => hd.joined, fun hjoined => ⟨hjoined, fun w hw => absurd hw (h w)⟩⟩

/-- A reference has no wholes in it. -/
theorem not_hasWhole_ref (t : TensorRef) (w : Diagram) : ¬ HasWhole w true (ref t) := by
  rintro ⟨⟩

/-- Nor has its conjugate. -/
theorem not_hasWhole_conj_ref (t : TensorRef) (w : Diagram) : ¬ HasWhole w true (conj (ref t)) := by
  intro h
  cases h with
  | conj ha => exact ha t rfl

/-- A conjugate is clear if its argument is, as a whole. -/
theorem isClear_conj_iff (hterm : (conj a).braidingTerm? braidingName = none) :
    (conj a).IsClear braidingName true ↔ a.IsClear braidingName false := by
  by_cases href : ∃ t, a = ref t
  · obtain ⟨t, rfl⟩ := href
    rw [isClear_false_iff, isClear_iff_joined (not_hasWhole_conj_ref t),
      isClear_iff_joined (not_hasWhole_ref t)]
    exact (and_iff_left (not_isTangle (d := ref t) (by simp) hterm)).symm
  · rw [not_exists] at href
    constructor
    · exact fun h => ⟨h.joined, fun w hw => h.whole w (.conj href hw)⟩
    · intro h
      refine ⟨h.joined, fun w hw => ?_⟩
      cases hw with
      | conj _ hw => exact h.whole w hw

/-- A braiding is clear if its strands are joined. -/
theorem isClear_braiding_iff (hterm : d.braidingTerm? braidingName = some t) :
    d.IsClear braidingName true ↔ t.HasJoinedStrands := by
  obtain ⟨rfl | rfl, hbraiding⟩ := eq_of_braidingTerm? hterm
  · rw [isClear_iff_joined (not_hasWhole_ref t)]
    simp [tensors, hbraiding]
  · rw [isClear_iff_joined (not_hasWhole_conj_ref t)]
    simp [tensors, hbraiding]

/-- A formula is purged as a whole if it is as a factor and is no tangle. -/
theorem IsFormula.exists_wholeOf_iff (hd : d.IsFormula) :
    (∃ x, wholeOf braidingName d (d.remainder braidingName) = .ok x) ↔
      (∃ o, d.remainder braidingName = .ok o) ∧ ¬ d.IsTangle braidingName := by
  constructor
  · rintro ⟨x, hx⟩
    have hx := wholeOf_eq_ok hx
    exact ⟨⟨_, hx⟩, (remnants_singleton_iff.mp (hd.remnants hx)).2.2.2⟩
  · rintro ⟨⟨o, ho⟩, htangle⟩
    have hterm : d.braidingTerm? braidingName = none :=
      Option.eq_none_iff_forall_ne_some.mpr fun t ht => htangle (.braiding ht)
    cases o with
    | none =>
      exact absurd (List.forall_mem_singleton.mp ((hd.remnants ho).eq_nil_iff.mp rfl)) htangle
    | some x =>
      refine ⟨x, ?_⟩
      rw [wholeOf, hterm, ho]
      rfl

/-- A braiding is removed if it is clear. -/
theorem exists_remainder_braiding_iff (hterm : d.braidingTerm? braidingName = some t) :
    (∃ o, d.remainder braidingName = .ok o) ↔ d.IsClear braidingName true := by
  rw [isClear_braiding_iff hterm, remainder_braiding hterm, exists_bind_ok_iff,
    TensorRef.HasJoinedStrands, ← TensorRef.checkRemovable_eq_ok_iff]
  exact ⟨fun ⟨_, h⟩ => h, fun h => ⟨(), h⟩⟩

/-- A formula is purged as a factor if it is clear as a factor. -/
theorem IsFormula.exists_remainder_iff (hd : d.IsFormula) :
    (∃ o, d.remainder braidingName = .ok o) ↔ d.IsClear braidingName true := by
  -- what is no factor has to be clear as a whole
  have hwhole : ∀ {d : Diagram}, d.IsFormula →
      ((∃ o, d.remainder braidingName = .ok o) ↔ d.IsClear braidingName true) →
      ((∃ x, wholeOf braidingName d (d.remainder braidingName) = .ok x) ↔
        d.IsClear braidingName false) := by
    intro d hd ih
    rw [hd.exists_wholeOf_iff, isClear_false_iff, ih]
  induction hd with
  | ref t =>
    by_cases h : t.isBraiding braidingName = true
    · exact exists_remainder_braiding_iff (d := .ref t) (t := t) (if_pos h)
    · refine iff_of_true ⟨_, if_neg h⟩ ((isClear_iff_joined (not_hasWhole_ref t)).mpr
        fun u hu hbraiding => ?_)
      exact absurd hbraiding (List.mem_singleton.mp hu ▸ h)
  | scalar s => exact iff_of_true ⟨_, rfl⟩ ⟨by simp [tensors], by rintro _ ⟨⟩⟩
  | @conj a ha ih =>
    cases hterm : (Diagram.conj a).braidingTerm? braidingName with
    | some t => exact exists_remainder_braiding_iff hterm
    | none =>
      rw [remainder_conj_of_none hterm, exists_bind_ok_iff, hwhole ha ih, isClear_conj_iff hterm]
  | @sum sign a rest ha hrest iha ihrest =>
    rw [remainder_sum, exists_bind_bind_ok_iff, hwhole ha iha, exists_mapM_iff, isClear_sum_iff,
      List.forall_mem_cons]
    refine and_congr_right fun _ => forall₂_congr fun z hz => ?_
    rw [exists_bind_ok_iff, hwhole (hrest z hz) (ihrest z hz)]
  | @product a b rest ha hb hrest iha ihb ihrest =>
    rw [remainder_product, exists_bind_ok_iff, exists_mapM_iff, isClear_product_iff]
    exact forall₂_congr (forall_mem_factors iha ihb ihrest)

/-! ## How purging fails -/

/-- A whole fails with an error of removal. -/
theorem wholeOf_failsWith (d : Diagram) {remaining : Except Error (Option Diagram)}
    (h : FailsWith (·.kind = .braidingRemoval) remaining) :
    FailsWith (·.kind = .braidingRemoval) (wholeOf braidingName d remaining) := by
  rw [wholeOf]
  refine .ite _ (.error rfl) (h.bind fun o => ?_)
  cases o with
  | none => exact .error rfl
  | some x => exact .ok x

/-- Removing braidings fails with an error of removal. -/
theorem IsFormula.remainder_failsWith (hd : d.IsFormula) :
    FailsWith (·.kind = .braidingRemoval) (d.remainder braidingName) := by
  induction hd with
  | ref t =>
    rw [remainder]
    exact .ite _ (t.checkRemovable_failsWith.bind fun _ => .ok none) (.ok _)
  | scalar s => exact .ok _
  | @conj a ha ih =>
    cases hterm : (Diagram.conj a).braidingTerm? braidingName with
    | some t =>
      rw [remainder_braiding hterm]
      exact t.checkRemovable_failsWith.bind fun _ => .ok none
    | none =>
      rw [remainder_conj_of_none hterm]
      exact (wholeOf_failsWith a ih).bind fun _ => .ok _
  | @sum sign a rest ha hrest iha ihrest =>
    rw [remainder_sum]
    refine (wholeOf_failsWith a iha).bind fun x => (FailsWith.mapM fun z hz => ?_).bind
      fun zs => .ok _
    exact (wholeOf_failsWith z.2 (ihrest z hz)).bind fun _ => .ok _
  | @product a b rest ha hb hrest iha ihb ihrest =>
    rw [remainder_product]
    exact (FailsWith.mapM (forall_mem_factors iha ihb ihrest)).bind fun _ => .ok _

/-- Purging a formula drops its braidings and nothing else.  It succeeds exactly if the strands of
all braidings are joined and no part that is no factor is a tangle; otherwise it fails with a
removal error.  What it gives has tensor indices exactly if the formula has them without counting
braidings. -/
theorem IsFormula.purging_drops_braidings {d : Diagram} (hd : d.IsFormula) :
    (∀ d', d.purgeBraidings braidingName = .ok d' →
      d'.IsFormula ∧ (d'.tensors = d.tensors.filter fun t => !t.isBraiding braidingName) ∧
        (d'.isTensor = true ↔ d.StaysTensor braidingName)) ∧
    ((∃ d', d.purgeBraidings braidingName = .ok d') ↔
      (∀ t ∈ d.tensors, t.isBraiding braidingName = true → t.HasJoinedStrands) ∧
        ∀ w, HasWhole w false d → ¬ w.IsTangle braidingName) ∧
    FailsWith (·.kind = .braidingRemoval) (d.purgeBraidings braidingName) := by
  refine ⟨fun d' h => ?_, ?_, wholeOf_failsWith d hd.remainder_failsWith⟩
  · obtain ⟨hformula, htensors, htensor, -⟩ :=
      remnants_singleton_iff.mp (hd.remnants (wholeOf_eq_ok h))
    exact ⟨hformula, htensors, htensor⟩
  · rw [purgeBraidings, hd.exists_wholeOf_iff, hd.exists_remainder_iff, ← isClear_false_iff]
    exact ⟨fun h => ⟨h.joined, h.whole⟩, fun h => ⟨h.1, h.2⟩⟩

/-- A braiding with joined strands. -/
def joinedCrossing : TensorRef :=
  ⟨.name "τ", [.name "a", .name "b"], [.name "b", .name "a"], false⟩

/-- Braidings among the factors of nested products, under a conjugation, and next to a scalar. -/
def nestedCrossings : Diagram :=
  product (ref ⟨.name "A", [.name "a"], [], false⟩)
    (pair (ref joinedCrossing) (conj (ref joinedCrossing)))
    [sum .plus (pair (scalar (.name "s")) (ref joinedCrossing))
      [(.minus, ref ⟨.name "B", [], [], false⟩)]]

/-- The nested crossings are dropped: the inner product vanishes, and a term of the sum is left with
its scalar. -/
theorem purging_drops_nestedCrossings : nestedCrossings.IsFormula ∧
    nestedCrossings.purgeBraidings "τ" = .ok (pair (ref ⟨.name "A", [.name "a"], [], false⟩)
      (sum .plus (scalar (.name "s")) [(.minus, ref ⟨.name "B", [], [], false⟩)])) ∧
    nestedCrossings.StaysTensor "τ" ∧ ∀ w, HasWhole w false nestedCrossings → ¬ w.IsTangle "τ" := by
  have hformula : nestedCrossings.IsFormula := by
    refine .product (.ref _) (.product (.ref _) (.conj (.ref _)) (by simp))
      (List.forall_mem_singleton.mpr ?_)
    exact .sum (.product (.scalar _) (.ref _) (by simp)) (List.forall_mem_singleton.mpr (.ref _))
  have hpurged : nestedCrossings.purgeBraidings "τ" =
    .ok (pair (ref ⟨.name "A", [.name "a"], [], false⟩)
      (sum .plus (scalar (.name "s")) [(.minus, ref ⟨.name "B", [], [], false⟩)])) := rfl
  obtain ⟨hresult, hsuccess, -⟩ := hformula.purging_drops_braidings
  exact ⟨hformula, hpurged, (hresult _ hpurged).2.2.mp rfl, (hsuccess.mp ⟨_, hpurged⟩).2⟩

/-- A product with braidings and no other references. -/
def scaledCrossing : Diagram :=
  pair (scalar (.number (.integer 2))) (ref joinedCrossing)

/-- Scalars count as factors that remain, so a product with braidings and no other references may be
left without tensor indices. -/
theorem purging_leaves_scalar : scaledCrossing.IsFormula ∧ scaledCrossing.isTensor = true ∧
    (∀ t ∈ scaledCrossing.tensors, t.isBraiding "τ" = true) ∧
    scaledCrossing.purgeBraidings "τ" = .ok (scalar (.number (.integer 2))) ∧
    (scalar (.number (.integer 2))).isTensor = false := by
  refine ⟨.product (.scalar _) (.ref _) (by simp), rfl, ?_, rfl, rfl⟩
  decide

end Diagram

end TensorDiagram
