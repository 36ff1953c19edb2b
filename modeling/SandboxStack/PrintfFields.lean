import SandboxStack.PrintfDirectives

namespace SandboxStack.Printf
open NumberText Stdio

section
variable {num bytes before digits out : List Byte} {base v n len w l : Nat} {spelling : List Char} {c : Byte} {neg zero left : Bool}

-- The digits of a number from the characters for them.
def spelled (spelling : List Char) (base v : Nat) : List Byte :=
  (if v = 0 then [0] else (base.digits v).reverse).map fun d => BitVec.ofNat 8 (spelling.getD d '0').toNat

theorem spelled_last (spelling : List Char) (large : 1 < base) (last : v / base = 0) :
    spelled spelling base v = [BitVec.ofNat 8 (spelling.getD (v % base) '0').toNat] := by
  have small : v < base := (Nat.div_eq_zero_iff_lt (by omega)).mp last
  unfold spelled
  by_cases zero : v = 0
  · subst zero
    rw [Nat.zero_mod]
    rfl
  · rw [if_neg zero,Nat.digits_of_lt base v zero small,Nat.mod_eq_of_lt small]
    rfl

theorem spelled_more (spelling : List Char) (large : 1 < base) (more : v / base ≠ 0) :
    spelled spelling base v = spelled spelling base (v / base) ++ [BitVec.ofNat 8 (spelling.getD (v % base) '0').toNat] := by
  have positive : 0 < v := Nat.pos_of_ne_zero fun zero => more (by rw [zero,Nat.zero_div])
  unfold spelled
  rw [if_neg more,if_neg positive.ne',Nat.digits_def' large positive,List.reverse_cons,List.map_append]
  rfl

theorem drop_set (inside : n < num.length) : (num.set n c).drop n = c :: num.drop (n + 1) := by
  rw [List.drop_eq_getElem_cons (by rwa [List.length_set]),List.getElem_set_self,List.drop_set_of_lt (Nat.lt_succ_self n)]

-- The buffer is filled backwards from its end.
theorem digitLoop_spelled (spelling : List Char) (len : Nat) (large : 1 < base) (buffer : num.length = 24)
    (room : len + (spelled spelling base v).length ≤ 24) :
    (digitLoop spelling base large v len num).1 = len + (spelled spelling base v).length ∧
      (digitLoop spelling base large v len num).2.length = 24 ∧
      (digitLoop spelling base large v len num).2.drop (24 - (len + (spelled spelling base v).length)) =
        spelled spelling base v ++ num.drop (24 - len) := by
  induction v, len, num using digitLoop.induct spelling base large with
  | case1 v len num last =>
    have one := spelled_last spelling large last
    rw [one] at room ⊢
    unfold digitLoop
    rw [if_pos last]
    refine ⟨rfl,by rw [List.length_set,buffer],?_⟩
    have place : 24 - (len + 1) = 23 - len := by omega
    have next : 23 - len + 1 = 24 - len := by simp at room; omega
    show (num.set (23 - len) _).drop (24 - (len + 1)) = _
    rw [place,drop_set (by omega),next]
    rfl
  | case2 v len num filled more ih =>
    have longer := spelled_more spelling large more
    have lengths : (spelled spelling base v).length = (spelled spelling base (v / base)).length + 1 := by
      rw [longer,List.length_append]
      rfl
    obtain ⟨count,size,dropped⟩ := ih (by rw [List.length_set,buffer]) (by omega)
    unfold digitLoop
    rw [if_neg more]
    have total : len + (spelled spelling base v).length = len + 1 + (spelled spelling base (v / base)).length := by omega
    have next : 23 - len + 1 = 24 - len := by omega
    rw [total]
    refine ⟨count,size,?_⟩
    show (digitLoop spelling base large (v / base) (len + 1) (num.set (23 - len) _)).2.drop _ = _
    rw [dropped,longer,show 24 - (len + 1) = 23 - len by omega,drop_set (by omega),next,List.append_assoc]
    rfl

theorem number_spelled (large : 1 < base) (buffer : num.length = 24)
    (room : (spelled spelling base v).length < 24) :
    number spelling base large neg v num =
      ⟨neg,(if neg then [45] else []) ++ spelled spelling base v,
        BitVec.ofNat 32 (((if neg then [45] else []) ++ spelled spelling base v : List Byte).length)⟩ := by
  obtain ⟨count,size,dropped⟩ := digitLoop_spelled spelling 0 large buffer (v := v) (by omega)
  rw [Nat.zero_add] at count dropped
  unfold number
  cases neg with
  | false =>
    simp only [Bool.false_eq_true,if_false,List.nil_append,count,dropped,List.drop_of_length_le (Nat.le_of_eq buffer),List.append_nil]
  | true =>
    have place : 24 - ((spelled spelling base v).length + 1) = 23 - (spelled spelling base v).length := by omega
    have next : 23 - (spelled spelling base v).length + 1 = 24 - (spelled spelling base v).length := by omega
    simp only [if_true,count,place]
    rw [drop_set (by omega),next,dropped,List.drop_of_length_le (Nat.le_of_eq buffer),List.append_nil]
    rfl

theorem toInt_small (small : n < 2 ^ 31) : (BitVec.ofNat 32 n).toInt = n := by
  rw [BitVec.toInt_eq_toNat_of_lt (by rw [BitVec.toNat_ofNat]; omega),BitVec.toNat_ofNat,Nat.mod_eq_of_lt (by omega)]

theorem padding_replicate {width len : BitVec 32} : padding width len c = List.replicate (width.toInt - len.toInt).toNat c := by
  induction width using padding.induct len with
  | case1 width more ih =>
    have apart := BitVec.slt_iff_toInt_lt.mp more
    have low := BitVec.le_toInt len
    have high := BitVec.toInt_lt (x := width)
    have less : (width - 1).toInt = width.toInt - 1 := by
      rw [BitVec.toInt_sub]
      exact Int.bmod_eq_of_le_mul_two (by simp; omega) (by simp; omega)
    have longer : (width.toInt - len.toInt).toNat = ((width - 1).toInt - len.toInt).toNat + 1 := by omega
    unfold padding
    rw [if_pos more,ih,longer,List.replicate_succ]
  | case2 width done =>
    have close : ¬len.toInt < width.toInt := fun far => done (BitVec.slt_iff_toInt_lt.mpr far)
    have none : (width.toInt - len.toInt).toNat = 0 := by omega
    unfold padding
    rw [if_neg done,none]
    rfl

theorem padding_small (width : w < 2 ^ 31) (length : l < 2 ^ 31) :
    padding (BitVec.ofNat 32 w) (BitVec.ofNat 32 l) c = List.replicate (w - l) c := by
  rw [padding_replicate,toInt_small width,toInt_small length]
  congr 1
  omega

theorem padding_less (width : w < 2 ^ 31) (length : l < 2 ^ 31) :
    padding (BitVec.ofNat 32 w - 1) (BitVec.ofNat 32 l) c = List.replicate (w - 1 - l) c := by
  have less : (BitVec.ofNat 32 w - 1).toInt = (w : Int) - 1 := by
    rw [BitVec.toInt_sub,toInt_small width]
    exact Int.bmod_eq_of_le_mul_two (by simp; omega) (by simp; omega)
  rw [padding_replicate,less,toInt_small length]
  congr 1
  omega

theorem layout_bytes (width : w < 2 ^ 31) (length : l < 2 ^ 31) (inside : l ≤ bytes.length) {prec : BitVec 32} {longs : Nat} :
    layout ⟨zero,left,BitVec.ofNat 32 w,prec,longs⟩ ⟨false,bytes,BitVec.ofNat 32 l⟩ =
      (if zero && !left then zeroField w [] (bytes.take l) else field left w (bytes.take l),BitVec.ofNat 32 (max w l)) := by
  have taken : (bytes.take l).length = l := by rw [List.length_take]; omega
  have same : (BitVec.ofNat 32 l).toNat = l := by rw [BitVec.toNat_ofNat,Nat.mod_eq_of_lt (by omega)]
  unfold layout
  simp only [Bool.false_and,Bool.false_eq_true,if_false,padding_small width length,same]
  have total : BitVec.ofNat 32 (w - l) + BitVec.ofNat 32 l = BitVec.ofNat 32 (max w l) := by
    rw [← BitVec.ofNat_add]
    congr 1
    omega
  cases left with
  | false =>
    cases zero with
    | false =>
      simp [field,taken,← total]
    | true =>
      simp [zeroField,taken,← total]
  | true =>
    simp [field,taken,← total,BitVec.add_comm]

theorem field_length : (field left w bytes).length = max w bytes.length := by
  unfold field
  split <;> simp <;> omega

theorem zeroField_length : (zeroField w before digits).length = max w (before.length + digits.length) := by
  unfold zeroField
  simp
  omega

-- The sign stands before the zeros.
theorem layout_apart (width : w < 2 ^ 31) (length : l < 2 ^ 31) (whole : digits.length = l) {prec : BitVec 32} {longs : Nat} :
    layout ⟨true,false,BitVec.ofNat 32 w,prec,longs⟩ ⟨true,45 :: digits,BitVec.ofNat 32 (l + 1)⟩ =
      (zeroField w [45] digits,BitVec.ofNat 32 (max w (l + 1))) := by
  subst whole
  have less : BitVec.ofNat 32 (digits.length + 1) - 1 = BitVec.ofNat 32 digits.length := by
    rw [BitVec.ofNat_add]
    exact BitVec.add_sub_cancel _ _
  have same : (BitVec.ofNat 32 digits.length).toNat = digits.length := by rw [BitVec.toNat_ofNat,Nat.mod_eq_of_lt (by omega)]
  have count : (1 : BitVec 32) + BitVec.ofNat 32 (w - 1 - digits.length) + BitVec.ofNat 32 digits.length =
      BitVec.ofNat 32 (max w (digits.length + 1)) := by
    show BitVec.ofNat 32 1 + _ + _ = _
    rw [← BitVec.ofNat_add,← BitVec.ofNat_add]
    congr 1
    omega
  have zeros : w - 1 - digits.length = w - (1 + digits.length) := by omega
  unfold layout
  simp only [Bool.not_false,Bool.and_true,if_true,Bool.false_eq_true,if_false,less,same,List.tail_cons,padding_less width length,
    List.length_replicate,List.append_nil,List.length_nil,List.take_length]
  rw [zeroField,← count,zeros]
  simp

theorem layout_number (width : w < 2 ^ 31) (length : digits.length < 24) {prec : BitVec 32} {longs : Nat}
    (signed : before = if neg then [45] else [])
    (padded : out = if zero && !left then zeroField w before digits else field left w (before ++ digits)) :
    layout ⟨zero,left,BitVec.ofNat 32 w,prec,longs⟩ ⟨neg,before ++ digits,BitVec.ofNat 32 (before ++ digits).length⟩ =
      (out,BitVec.ofNat 32 out.length) := by
  have total : out.length = max w (before ++ digits).length := by
    rw [padded,List.length_append]
    split
    · exact zeroField_length
    · rw [field_length,List.length_append]
  have short : (before ++ digits).length < 2 ^ 31 := by
    rw [List.length_append,signed]
    cases neg <;> simp <;> omega
  rw [total]
  by_cases apart : neg && zero && !left
  · simp only [Bool.and_eq_true,Bool.not_eq_true'] at apart
    obtain ⟨⟨rfl,rfl⟩,rfl⟩ := apart
    have minus : before = [45] := signed
    subst minus
    rw [padded,List.length_append,Nat.add_comm]
    exact layout_apart width (Nat.lt_trans length (by decide)) rfl
  · have plain : layout ⟨zero,left,BitVec.ofNat 32 w,prec,longs⟩ ⟨neg,before ++ digits,BitVec.ofNat 32 (before ++ digits).length⟩ =
        layout ⟨zero,left,BitVec.ofNat 32 w,prec,longs⟩ ⟨false,before ++ digits,BitVec.ofNat 32 (before ++ digits).length⟩ := by
      unfold layout
      simp only [apart,Bool.false_and,Bool.false_eq_true,if_false]
    rw [plain,layout_bytes width short (Nat.le_refl _),List.take_length,padded]
    congr 1
    split
    · rename_i zeros
      have positive : neg = false := by
        cases neg with
        | false => rfl
        | true => exact absurd (by simpa using zeros) apart
      subst positive
      cases signed
      rfl
    · rfl

end

end SandboxStack.Printf
