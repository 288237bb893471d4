import TensorDiagram.Machine.Evaluate
import TensorDiagram.Proofs.Contraction

/-!
# The meaning of values

A value means a scalar or an array with labelled legs.  There is more to a value than that: its legs
are in some order and on some side.  Products, signs and sums of values are computed in exact
arithmetic as their meanings say: `outcome?_mul`, `outcome?_signed` and `outcome?_add`.
-/

namespace TensorDiagram

/-- A scalar or an array with labelled legs. -/
inductive Meaning (R : Type) [Zero R] where
  | scalar (x : R)
  | array (N : LegArray R)

namespace Meaning

variable {R : Type} [CommRing R]

open Classical in
/-- The product, in which labels that appear twice are summed over. -/
noncomputable def mul : Meaning R → Meaning R → Option (Meaning R)
  | scalar x, scalar y => some (scalar (x * y))
  | scalar x, array N => some (array (.const x * N))
  | array N, scalar x => some (array (.const x * N))
  | array N, array M => if (N * M).Joinable then some (array (N * M).contract) else none

/-- The array with a sign. -/
def signedArray : Sign → LegArray R → LegArray R
  | .plus, N => N
  | .minus, N => .const (-1) * N

/-- The meaning with a sign. -/
def signed (sign : Sign) : Meaning R → Meaning R
  | scalar x => scalar (sign.toInt * x)
  | array N => array (signedArray sign N)

/-- The sum, of which the second term has a sign. -/
def add (sign : Sign) : Meaning R → Meaning R → Option (Meaning R)
  | scalar x, scalar y => some (scalar (x + sign.toInt * y))
  | array N, array M =>
    if N.legs = M.legs then some (array (N.add (signedArray sign M))) else none
  | _, _ => none

/-- The order of two factors does not matter. -/
theorem mul_comm (u v : Meaning R) : u.mul v = v.mul u := by
  cases u with
  | scalar x =>
    cases v with
    | scalar y => rw [mul, mul, CommMonoid.mul_comm]
    | array M => rfl
  | array N =>
    cases v with
    | scalar y => rfl
    | array M => rw [mul, mul, CommMonoid.mul_comm]

end Meaning

/-! ## Meanings of values -/

namespace Evaluated

variable {R : Type}
variable {labels others : List Index} {x : Evaluated R} {t : Tensor R}

/-- No label of the value is repeated. -/
def IsDistinct : Evaluated R → Prop
  | labelled _ labels => labels.Nodup
  | plain _ => True

/-- A tensor is an operand if every leg has a label. -/
theorem toOperand_tensor (t : Tensor R) (labels : List Index) :
    (Value.tensor t).toOperand labels =
      if labels.length = t.legs.count then .ok ⟨t, labels⟩
      else .error (.labelCount t.legs.count labels.length) := by
  rw [Value.toOperand, Value.toTensor, ok_bind, Tensor.Operand.legs]
  split_ifs <;> rfl

/-- What is an operand. -/
theorem toOperand_eq_ok_iff {v : Value R} {x : Tensor.Operand R} :
    v.toOperand labels = .ok x ↔
      ∃ t, v = .tensor t ∧ labels.length = t.legs.count ∧ x = ⟨t, labels⟩ := by
  cases v with
  | scalar y => simp [Value.toOperand, Value.toTensor]
  | tensor t =>
    rw [toOperand_tensor]
    split_ifs with h <;> simp [h, eq_comm]

variable [CommRing R] [Arithmetic R]

/-- What a value means.  A plain tensor means nothing, and neither does a value with another number
of labels than legs. -/
def meaning? : Evaluated R → Option (Meaning R)
  | plain (.scalar x) => some (.scalar x)
  | labelled (.tensor t) labels =>
    if labels.length = t.legs.count then some (.array (t.toArray labels)) else none
  | _ => none

/-- What the outcome of a computation means. -/
def outcome? (result : Except Error (Evaluated R)) : Option (Meaning R) :=
  result.toOption.bind meaning?

@[simp] theorem outcome?_ok (x : Evaluated R) : outcome? (.ok x) = x.meaning? := rfl

@[simp] theorem outcome?_error (e : Error) :
    outcome? (.error e : Except Error (Evaluated R)) = none :=
  rfl

theorem outcome?_eq_some_iff {result : Except Error (Evaluated R)} {u : Meaning R} :
    outcome? result = some u ↔ ∃ x, result = .ok x ∧ x.meaning? = some u := by
  cases result <;> simp

/-- The values that mean a scalar. -/
theorem meaning?_eq_scalar_iff {a : R} : x.meaning? = some (.scalar a) ↔ x = plain (.scalar a) := by
  match x with
  | plain (.scalar y) => simp [meaning?]
  | plain (.tensor t) => simp [meaning?]
  | labelled (.scalar y) labels => simp [meaning?]
  | labelled (.tensor t) labels =>
    rw [meaning?]
    split_ifs <;> simp

/-- The values that mean an array. -/
theorem meaning?_eq_array_iff {N : LegArray R} :
    x.meaning? = some (.array N) ↔ ∃ (t : Tensor R) (labels : List Index),
      x = labelled (.tensor t) labels ∧ labels.length = t.legs.count ∧ N = t.toArray labels := by
  constructor
  · intro h
    match x with
    | plain (.scalar y) => simp [meaning?] at h
    | plain (.tensor t) => simp [meaning?] at h
    | labelled (.scalar y) labels => simp [meaning?] at h
    | labelled (.tensor t) labels =>
      rw [meaning?] at h
      split_ifs at h with hcount
      exact ⟨t, labels, rfl, hcount, by simpa using h.symm⟩
  · rintro ⟨t, labels, rfl, hcount, rfl⟩
    rw [meaning?, if_pos hcount]

/-- A tensor with a label for each leg means something. -/
theorem exists_meaning_iff :
    (∃ u, (labelled (.tensor t) labels).meaning? = some u) ↔ labels.length = t.legs.count := by
  rw [meaning?]
  split_ifs with h <;> simp [h]

/-- A value with labels means an array, if anything. -/
theorem exists_array_of_labelled {v : Value R} {u : Meaning R}
    (h : (labelled v labels).meaning? = some u) : ∃ N, u = .array N := by
  cases v with
  | scalar x => simp [meaning?] at h
  | tensor t =>
    rw [meaning?] at h
    split_ifs at h
    exact ⟨_, (Option.some.inj h).symm⟩

variable [StarRing R] [Arithmetic.IsExact R]

/-- The multiple of a value with labels. -/
theorem outcome?_scaled (v alpha : Value R) (labels : List Index) :
    outcome? (scaled v labels alpha) = (plain alpha).meaning?.bind fun a =>
      (labelled v labels).meaning?.bind fun u => a.mul u := by
  cases v with
  | scalar y => cases alpha <;> rfl
  | tensor t =>
    cases alpha with
    | tensor s => rfl
    | scalar x =>
      obtain ⟨u, hu, hlegs, harray⟩ := Tensor.exists_scale x t
      have hscaled : scaled (.tensor t) labels (.scalar x) = .ok (labelled (.tensor u) labels) := by
        simp only [scaled, Value.toTensor, Value.toScalar, ok_bind, hu]
        rfl
      rw [hscaled, outcome?_ok, meaning?, meaning?, meaning?, Option.bind_some, hlegs]
      split_ifs with hcount
      · rw [harray labels hcount]
        rfl
      · rfl

/-- The labels that are left of two lists of distinct labels. -/
theorem perm_once_append (h : labels.Nodup) (h' : others.Nodup) :
    (labels.filter (· ∉ others) ++ others.filter (· ∉ labels)).Perm (once (labels ++ others)) := by
  have hnd : (labels.filter (· ∉ others) ++ others.filter (· ∉ labels)).Nodup := by
    refine List.nodup_append.mpr ⟨h.filter _, h'.filter _, fun x hx y hy hxy => ?_⟩
    subst hxy
    simp only [List.mem_filter, decide_eq_true_eq] at hx hy
    exact hx.2 hy.1
  refine (List.perm_ext_iff_of_nodup hnd (nodup_once _)).mpr fun l => ?_
  rw [mem_once, List.count_append, h.count, h'.count]
  by_cases hl : l ∈ labels <;> by_cases hl' : l ∈ others <;> simp [hl, hl']

/-- The contraction of two values with labels. -/
theorem outcome?_joined {a b : Value R} (h : labels.Nodup) (h' : others.Nodup) :
    outcome? (joined a labels b others) = (labelled a labels).meaning?.bind fun u =>
      (labelled b others).meaning?.bind fun v => u.mul v := by
  cases a with
  | scalar x => rfl
  | tensor s =>
    cases b with
    | scalar y =>
      rw [joined, toOperand_tensor]
      split_ifs with hs <;> simp [meaning?, hs, Value.toOperand, Value.toTensor]
    | tensor t =>
      rw [joined, toOperand_tensor, toOperand_tensor, meaning?, meaning?]
      by_cases hs : labels.length = s.legs.count
      · by_cases ht : others.length = t.legs.count
        · rw [if_pos hs, if_pos ht, if_pos hs, if_pos ht, ok_bind, ok_bind, Option.bind_some,
            Option.bind_some, Meaning.mul]
          have hproper : ∀ x ∈ [(⟨s, labels⟩ : Tensor.Operand R), ⟨t, others⟩], x.IsProper := by
            simpa [Tensor.Operand.IsProper] using ⟨hs, ht⟩
          have hnetwork : Tensor.network [(⟨s, labels⟩ : Tensor.Operand R), ⟨t, others⟩] =
              s.toArray labels * t.toArray others := Tensor.network_pair s t labels others
          by_cases hjoin : (s.toArray labels * t.toArray others).Joinable
          · have hjoin' :
                (Tensor.network [(⟨s, labels⟩ : Tensor.Operand R), ⟨t, others⟩]).Joinable := by
              rwa [hnetwork]
            have hlabels :
                ((labels.filter (· ∉ others) ++ others.filter (· ∉ labels) : List Index) :
                Multiset Index) = (Tensor.network [(⟨s, labels⟩ : Tensor.Operand R),
                  ⟨t, others⟩]).contract.labels := by
              rw [Tensor.labels_contract_network hjoin', Tensor.map_fst_allLegs hproper]
              exact Multiset.coe_eq_coe.mpr (by simpa using perm_once_append h h')
            obtain ⟨u, hu, hspec⟩ := Tensor.contractAll_of_checks hproper hjoin' hlabels
            rw [if_pos hjoin, hu, ok_bind]
            change meaning? (labelled (.tensor u) _) = _
            rw [meaning?, if_pos hspec.count_eq, hspec.array_eq, hnetwork]
          · rw [if_neg hjoin]
            rcases hu : Tensor.contractAll [(⟨s, labels⟩ : Tensor.Operand R), ⟨t, others⟩]
              (labels.filter (· ∉ others)) (others.filter (· ∉ labels)) with e | u
            · rfl
            · have hspec := (Tensor.contractAll_spec hu).joinable
              rw [hnetwork] at hspec
              exact absurd hspec hjoin
        · rw [if_pos hs, if_pos hs, if_neg ht, if_neg ht]
          rfl
      · rw [if_neg hs, if_neg hs]
        rfl

/-- The product of two values. -/
theorem outcome?_mul {y : Evaluated R} (hx : x.IsDistinct) (hy : y.IsDistinct) :
    outcome? (x.mul y) = x.meaning?.bind fun u => y.meaning?.bind fun v => u.mul v := by
  match x, y with
  | plain (.scalar a), plain (.scalar b) =>
    simp only [mul, Value.toScalar, ok_bind, Arithmetic.mulScalars_eq]
    rfl
  | plain (.scalar a), plain (.tensor t) => rfl
  | plain (.tensor t), plain b => rfl
  | plain a, labelled b labels => exact outcome?_scaled b a labels
  | labelled a labels, plain b =>
    rw [mul, outcome?_scaled]
    rcases (plain b).meaning? with _ | u <;> rcases (labelled a labels).meaning? with _ | v
    · rfl
    · rfl
    · rfl
    · exact Meaning.mul_comm u v
  | labelled a labels, labelled b others => exact outcome?_joined hx hy

/-- The value with a sign. -/
theorem outcome?_signed (sign : Sign) (hx : x.IsDistinct) :
    outcome? (x.signed sign) = x.meaning?.map (Meaning.signed sign) := by
  cases sign with
  | plus =>
    have hid : (Meaning.signed .plus : Meaning R → Meaning R) = id := by
      funext u
      cases u <;> simp [Meaning.signed, Meaning.signedArray, Sign.toInt]
    rw [signed, outcome?_ok, hid, Option.map_id_fun, id]
  | minus =>
    have hone : (ofInt (-1) : Evaluated R) = plain (.scalar (-1)) := by
      rw [ofInt, Arithmetic.IsExact.literal_integer, Int.cast_neg, Int.cast_one]
    rw [signed, hone,
      outcome?_mul (show (plain (.scalar (-1)) : Evaluated R).IsDistinct from trivial) hx]
    rcases x.meaning? with _ | u
    · rfl
    · cases u <;> simp [meaning?, Meaning.mul, Meaning.signed, Meaning.signedArray, Sign.toInt]

/-- A tensor with a sign. -/
def signedTensor (sign : Sign) (t : Tensor R) : Except Error (Tensor R) :=
  match sign with
  | .plus => .ok t
  | .minus => t.scale (Arithmetic.literal (.integer (-1)))

omit [CommRing R] [StarRing R] [Arithmetic.IsExact R] in
theorem legs_of_signedTensor {sign : Sign} {u : Tensor R} (h : signedTensor sign t = .ok u) :
    u.legs = t.legs := by
  cases sign with
  | plus => rw [Except.ok.inj h]
  | minus => exact Tensor.legs_of_scale h

/-- A tensor can have a sign. -/
theorem exists_signedTensor (sign : Sign) (t : Tensor R) :
    ∃ u, signedTensor sign t = .ok u ∧ u.legs = t.legs ∧
      ∀ labels : List Index, labels.length = t.legs.count →
        u.toArray labels = Meaning.signedArray sign (t.toArray labels) := by
  cases sign with
  | plus => exact ⟨t, rfl, rfl, fun _ _ => rfl⟩
  | minus =>
    obtain ⟨u, hu, hlegs, harray⟩ := Tensor.exists_scale (-1) t
    refine ⟨u, ?_, hlegs, harray⟩
    rw [signedTensor, Arithmetic.IsExact.literal_integer, Int.cast_neg, Int.cast_one, hu]

omit [CommRing R] [StarRing R] [Arithmetic.IsExact R] in
/-- The steps in which two values with labels are added. -/
theorem addLabelled_eq (a b : Value R) (labels others : List Index) (sign : Sign) :
    addLabelled a labels sign b others = a.toTensor >>= fun s => b.toOperand others >>=
      fun operand =>
      Tensor.contractAll [operand] (labels.take s.legs.codomain.length)
          (labels.drop s.legs.codomain.length) >>= fun t =>
        signedTensor sign t >>= fun t => s.add t >>= fun u =>
            .ok (labelled (.tensor u) labels) := by
  cases sign <;> rfl

/-- The sum of two tensors with labels, if the legs can be matched. -/
theorem addLabelled_eq_ok {s : Tensor R} (h : labels.Nodup) (h' : others.Nodup)
    (hs : labels.length = s.legs.count) (ht : others.length = t.legs.count)
    (hlegs : (s.toArray labels).legs = (t.toArray others).legs) (sign : Sign) :
    ∃ u, addLabelled (.tensor s) labels sign (.tensor t) others =
        .ok (labelled (.tensor u) labels) ∧ u.legs = s.legs ∧
      u.toArray labels = (s.toArray labels).add (Meaning.signedArray sign (t.toArray others)) := by
  have hperm : labels.Perm others := by
    have hlabels := congrArg (Multiset.map Prod.fst) hlegs
    change (s.toArray labels).labels = (t.toArray others).labels at hlabels
    rw [Tensor.labels_toArray hs, Tensor.labels_toArray ht] at hlabels
    exact Multiset.coe_eq_coe.mp hlabels
  have hcut := List.take_append_drop s.legs.codomain.length labels
  obtain ⟨u, hu, houtputs, hcount, harray⟩ := Tensor.exists_arranged ht h' (hcut.symm ▸ hperm)
  rw [hcut] at hcount harray
  have hlegs' : s.legs = u.legs := by
    have hzip : (s.toArray labels).legs = (u.toArray labels).legs := by rw [harray, hlegs]
    refine Tensor.legs_eq_of_spaces
      (Tensor.eq_of_zip_perm h (by simpa using hs) (by simpa using hcount)
      (Multiset.coe_eq_coe.mp hzip)) ?_
    rw [houtputs, List.length_take, hs, Legs.count]
    omega
  obtain ⟨v, hv, hvlegs, hvarray⟩ := exists_signedTensor sign u
  obtain ⟨w, hw⟩ := Tensor.exists_add_iff.mpr (hlegs'.trans hvlegs.symm)
  obtain ⟨-, hwlegs, hwarray⟩ := Tensor.add_spec hw
  refine ⟨w, ?_, hwlegs, ?_⟩
  · rw [addLabelled_eq, Value.toTensor, ok_bind, toOperand_tensor, if_pos ht, ok_bind, hu, ok_bind,
      hv, ok_bind, hw, ok_bind]
  · rw [hwarray labels hs, hvarray labels hcount, harray]

/-- Tensors that are added have the same legs. -/
theorem legs_eq_of_addLabelled {s : Tensor R} {sign : Sign} (h' : others.Nodup)
    (ht : others.length = t.legs.count)
    (hx : addLabelled (.tensor s) labels sign (.tensor t) others = .ok x) :
    labels.length = s.legs.count ∧ (s.toArray labels).legs = (t.toArray others).legs := by
  rw [addLabelled_eq, Value.toTensor, ok_bind, toOperand_tensor, if_pos ht, ok_bind] at hx
  obtain ⟨u, hu, hx⟩ := bind_eq_ok_iff.mp hx
  obtain ⟨v, hv, hx⟩ := bind_eq_ok_iff.mp hx
  obtain ⟨w, hw, -⟩ := bind_eq_ok_iff.mp hx
  have hspec := Tensor.contractAll_spec hu
  have hcount := hspec.count_eq
  have harray := hspec.array_eq
  rw [List.take_append_drop] at hcount harray
  rw [Tensor.network_singleton, Tensor.contract_toArray ht h'] at harray
  have hlegs : s.legs = u.legs := by
    obtain ⟨v', hv', hlegs, -⟩ := exists_signedTensor sign u
    obtain rfl := Except.ok.inj (hv.symm.trans hv')
    exact (Tensor.add_spec hw).1.trans hlegs
  refine ⟨hcount.trans (by rw [hlegs]), ?_⟩
  rw [← harray, Tensor.legs_toArray, Tensor.legs_toArray, Tensor.labelledLegs,
    Tensor.labelledLegs, hlegs]

/-- The sum of two values with labels. -/
theorem outcome?_addLabelled {a b : Value R} (h : labels.Nodup) (h' : others.Nodup) (sign : Sign) :
    outcome? (addLabelled a labels sign b others) = (labelled a labels).meaning?.bind fun u =>
      (labelled b others).meaning?.bind fun v => u.add sign v := by
  cases a with
  | scalar x => rfl
  | tensor s =>
    cases b with
    | scalar y =>
      simp only [meaning?, Option.bind_none, Option.bind_fun_none]
      rfl
    | tensor t =>
      by_cases ht : others.length = t.legs.count
      · by_cases hs : labels.length = s.legs.count ∧
            (s.toArray labels).legs = (t.toArray others).legs
        · obtain ⟨u, hu, hulegs, harray⟩ := addLabelled_eq_ok h h' hs.1 ht hs.2 sign
          rw [hu, outcome?_ok, meaning?, meaning?, meaning?, if_pos hs.1, if_pos ht, hulegs,
            if_pos hs.1, harray, Option.bind_some, Option.bind_some, Meaning.add, if_pos hs.2]
        · have hnone : ∀ x, addLabelled (.tensor s) labels sign (.tensor t) others ≠ .ok x :=
            fun x hx => hs (legs_eq_of_addLabelled h' ht hx)
          rcases hsum : addLabelled (.tensor s) labels sign (.tensor t) others with e | x
          · by_cases hcount : labels.length = s.legs.count
            · have hlegs := fun hlegs => hs ⟨hcount, hlegs⟩
              rw [outcome?_error, meaning?, meaning?, if_pos hcount, if_pos ht, Option.bind_some,
                Option.bind_some, Meaning.add, if_neg hlegs]
            · rw [outcome?_error, meaning?, if_neg hcount, Option.bind_none]
          · exact absurd hsum (hnone x)
      · rw [addLabelled_eq, Value.toTensor, ok_bind, toOperand_tensor, if_neg ht, meaning?,
          meaning?, if_neg ht]
        simp only [error_bind, outcome?_error, Option.bind_none, Option.bind_fun_none]

/-- The sum of two values. -/
theorem outcome?_add {y : Evaluated R} (hx : x.IsDistinct) (hy : y.IsDistinct) (sign : Sign) :
    outcome? (x.add sign y) = x.meaning?.bind fun u => y.meaning?.bind fun v => u.add sign v := by
  match x, y with
  | plain (.scalar a), plain (.scalar b) =>
    simp only [add, Value.toScalar, ok_bind, Arithmetic.mulScalars_eq, Arithmetic.addScalars_eq,
      Arithmetic.IsExact.literal_integer]
    rfl
  | plain (.scalar a), plain (.tensor t) => rfl
  | plain (.tensor t), plain (.scalar b) =>
    simp only [add, Value.toScalar, ok_bind, Arithmetic.mulScalars_eq]
    rfl
  | plain (.tensor t), plain (.tensor u) => rfl
  | plain a, labelled b labels =>
    cases a with
    | tensor t => rfl
    | scalar x =>
      rcases hb : (labelled b labels).meaning? with _ | u
      · rfl
      · obtain ⟨N, rfl⟩ := exists_array_of_labelled hb
        rfl
  | labelled a labels, plain b =>
    rcases ha : (labelled a labels).meaning? with _ | u
    · rfl
    · obtain ⟨N, rfl⟩ := exists_array_of_labelled ha
      cases b <;> rfl
  | labelled a labels, labelled b others => exact outcome?_addLabelled hx hy sign

end Evaluated

end TensorDiagram
