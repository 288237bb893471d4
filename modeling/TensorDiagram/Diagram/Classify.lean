import TensorDiagram.Error

/-!
# Forms of expressions

Which expressions carry tensor indices, which are scalars, and which are general tensors: one tensor
reference, possibly conjugated and multiplied by scalars. A general tensor is split into its
reference, on which conjugation is absorbed, and its scalar factors.

Further the references of an expression in order of appearance, and its free indices, those that
appear once.
-/

namespace TensorDiagram

/-- The entries that occur exactly once, in order. -/
def once {α : Type} [DecidableEq α] (xs : List α) : List α :=
  xs.filter fun x => xs.count x = 1

/-- A general tensor, split into its reference and its scalar factors. -/
structure GeneralTensor where
  /-- The reference, with conjugation absorbed. -/
  term : TensorRef
  /-- The scalar factors. -/
  scalars : List Diagram

namespace GeneralTensor

/-- The conjugate of a general tensor. -/
def conj (g : GeneralTensor) : GeneralTensor :=
  ⟨g.term.flipped, g.scalars.map .conj⟩

end GeneralTensor

/-- The references and scalar factors of some factors of a product. -/
structure FactorParts where
  /-- The references, one for each general tensor among the factors. -/
  terms : List TensorRef
  /-- The scalar factors. -/
  scalars : List Diagram

namespace FactorParts

/-- The parts of two lists of factors together. -/
def append (x y : FactorParts) : FactorParts :=
  ⟨x.terms ++ y.terms, x.scalars ++ y.scalars⟩

/-- The general tensor that has these parts, if there is exactly one reference. -/
def single? (x : FactorParts) : Option GeneralTensor :=
  match x.terms with
  | [t] => some ⟨t, x.scalars⟩
  | _ => none

end FactorParts

namespace Diagram

mutual
/-- Whether the diagram is an expression with tensor indices. -/
def isTensor : Diagram → Bool
  | ref _ => true
  | conj a => a.isTensor
  | product a b rest => a.isTensor || b.isTensor || someTensor rest
  | sum _ a rest => a.isTensor && allTensorTerms rest
  | _ => false
/-- Whether some of the factors have tensor indices. -/
def someTensor : List Diagram → Bool
  | [] => false
  | d :: rest => d.isTensor || someTensor rest
/-- Whether all of the terms have tensor indices. -/
def allTensorTerms : List (Sign × Diagram) → Bool
  | [] => true
  | (_, d) :: rest => d.isTensor && allTensorTerms rest
end

mutual
/-- Whether the diagram is an expression without any reference to a tensor. -/
def isScalar : Diagram → Bool
  | scalar _ => true
  | conj a => a.isScalar
  | product a b rest => a.isScalar && b.isScalar && allScalar rest
  | sum _ a rest => a.isScalar && allScalarTerms rest
  | _ => false
/-- Whether all of the factors are scalars. -/
def allScalar : List Diagram → Bool
  | [] => true
  | d :: rest => d.isScalar && allScalar rest
/-- Whether all of the terms are scalars. -/
def allScalarTerms : List (Sign × Diagram) → Bool
  | [] => true
  | (_, d) :: rest => d.isScalar && allScalarTerms rest
end

/-- What a factor contributes to a general tensor: the parts of a general tensor, or itself if it is
a scalar. -/
def factorParts? (d : Diagram) : Option GeneralTensor → Option FactorParts
  | some g => some ⟨[g.term], g.scalars⟩
  | none => if d.isScalar then some ⟨[], [d]⟩ else none

mutual
/-- The reference and the scalars of a general tensor. -/
def general? : Diagram → Option GeneralTensor
  | ref t => some ⟨t, []⟩
  | conj a => a.general?.map GeneralTensor.conj
  | product a b rest => do
    let x ← a.factorParts? a.general?
    let y ← b.factorParts? b.general?
    let z ← generalFactors? rest
    (x.append (y.append z)).single?
  | _ => none
/-- The parts of factors that are general tensors and scalars. -/
def generalFactors? : List Diagram → Option FactorParts
  | [] => some ⟨[], []⟩
  | d :: rest => do
    let x ← d.factorParts? d.general?
    let y ← generalFactors? rest
    some (x.append y)
end

/-- Whether the diagram is a single reference to a tensor, possibly conjugated and multiplied by
scalars. -/
def isGeneral (d : Diagram) : Bool :=
  d.general?.isSome

/-- The diagram without the conjugations around it. -/
def withoutConj : Diagram → Diagram
  | conj a => a.withoutConj
  | d => d

/-- The reference and the scalars of a general tensor. -/
def decompose (d : Diagram) : Except Error GeneralTensor :=
  match d.general? with
  | some g => .ok g
  | none => .error (.notGeneralTensor d.withoutConj)

/-- Whether a general tensor has an index twice. -/
def hasTrace (d : Diagram) : Except Error Bool := do
  let g ← d.decompose
  return !(duplicates [] g.term.indices).isEmpty

mutual
/-- The references to tensors in an expression, in order of appearance. -/
def tensors : Diagram → List TensorRef
  | ref t => [t]
  | conj a => a.tensors
  | product a b rest => a.tensors ++ b.tensors ++ listTensors rest
  | sum _ a rest => a.tensors ++ termTensors rest
  | _ => []
/-- The references in a list of factors. -/
def listTensors : List Diagram → List TensorRef
  | [] => []
  | d :: rest => d.tensors ++ listTensors rest
/-- The references in a list of terms. -/
def termTensors : List (Sign × Diagram) → List TensorRef
  | [] => []
  | (_, d) :: rest => d.tensors ++ termTensors rest
end

/-- The free indices of an expression, in order of appearance. Those of a sum are those of its first
term. -/
def freeIndices : Diagram → List Index
  | sum _ a _ => a.freeIndices
  | d => once (d.tensors.flatMap TensorRef.indices)

/-- Whether the diagram is a product of exactly two factors. -/
def isBinary : Diagram → Bool
  | product _ _ [] => true
  | _ => false

/-- The two factors of a binary product. -/
def factorPair (d : Diagram) : Except Error (Diagram × Diagram) :=
  match d with
  | product a b [] => .ok (a, b)
  | d => .error (.notBinary d)

end Diagram

end TensorDiagram
