import Velr.Common.FirstDifference
import Velr.Common.Utf8
import Mathlib.Data.List.Forall2

/-!
# The files of a source

`files` and `natural_cmp` of `import/input.rs`. The names that match a pattern are sorted by
`natural_cmp`: at the first difference of their parts, a part being a run of digits or any other
byte, and by length and bytes where the parts of one name are a prefix of the other's. That last
comparison counts leading zeros, so it is not always in line with the first one: the comparison is a
total order of the matching names, and their arrangement independent of the directory listing,
exactly when no name is straddled by two others (`files_order_iff`).
-/

namespace Velr.Import

open ByteString FirstDifference
open Utf8 (asBytes)

/-! ## The comparison -/

/-- `u8::is_ascii_digit` -/
def isDigit (b : UInt8) : Bool := 48 ≤ b && b ≤ 57

/-- `while aa.len() > 1 && aa[0] == b'0'` -/
def trimZeros : Bytes → Bytes
  | b :: c :: rest => if b = 48 then trimZeros (c :: rest) else b :: c :: rest
  | bs => bs

/-- By length and then by the bytes, `a.len().cmp(&b.len()).then_with(|| a.cmp(b))`. -/
def shortlex (a b : Bytes) : Ordering := (compare a.length b.length).then (compare a b)

/-- The loop of `natural_cmp` on the rest `a[i..]` and `b[j..]` of the names. -/
def naturalLoop (a b : Bytes) : Bytes → Bytes → Ordering
  | x :: xs, y :: ys =>
      if isDigit x && isDigit y then
        let aa := trimZeros ((x :: xs).takeWhile isDigit)
        let bb := trimZeros ((y :: ys).takeWhile isDigit)
        match shortlex aa bb with
        | .eq => naturalLoop a b (xs.dropWhile isDigit) (ys.dropWhile isDigit)
        | order => order
      else
        match compare x y with
        | .eq => naturalLoop a b xs ys
        | order => order
  | _, _ => shortlex a b
termination_by xs => xs.length
decreasing_by
  · have := (List.dropWhile_suffix isDigit (l := xs)).length_le
    simp only [List.length_cons]
    omega
  · simp

/-- `natural_cmp` -/
def naturalCmp (a b : String) : Ordering :=
  naturalLoop (asBytes a) (asBytes b) (asBytes a) (asBytes b)

/-! ## The files -/

/-- `PatternStyle` -/
inductive PatternStyle where
  | regex
  | glob
  | none
  deriving DecidableEq

/-- A pattern and what the file system answers about it: whether it names a remote file, whether it
is a file itself, and the paths that match it in the order of the listing, each with whether it is a
file. -/
structure Pattern where
  text : String
  remote : Bool
  isFile : Bool
  listing : Except String (List (String × Bool))

/-- `matches.retain(|path| path.is_file())` -/
def retained (listing : List (String × Bool)) : List String :=
  (listing.filter Prod.snd).map Prod.fst

/-- The files that match a pattern. -/
def Pattern.names (pattern : Pattern) : List String :=
  match pattern.listing with
  | .error _ => []
  | .ok listing => retained listing

/-- A sorting function as `sort_by` of the standard library. -/
abbrev SortBy := (String → String → Ordering) → List String → List String

/-- The body of the loop of `files`. -/
def expand (sortBy : SortBy) (style : PatternStyle) (pattern : Pattern) :
    Except String (List String) :=
  if pattern.remote then
    .error ("only local CSV paths are supported: " ++ pattern.text)
  else if pattern.isFile then .ok [pattern.text]
  else
    match style with
    | .none => .error ("input file does not exist: " ++ pattern.text)
    | _ => do
        let listing ← pattern.listing
        let files := retained listing
        if files.isEmpty then .error ("input pattern matched no files: " ++ pattern.text)
        else .ok (sortBy naturalCmp files)

/-- `files` -/
def files (sortBy : SortBy) (style : PatternStyle) :
    List Pattern → Except String (List String)
  | [] => .ok []
  | pattern :: patterns => do
      let first ← expand sortBy style pattern
      let rest ← files sortBy style patterns
      .ok (first ++ rest)

/-! ## Parts -/

/-- Bytes ordered by length first. -/
structure Shortlex where
  bytes : Bytes

instance : Ord Shortlex where
  compare := compareLex (compareOn fun s => s.bytes.length) (compareOn Shortlex.bytes)

instance : Std.TransOrd Shortlex := inferInstanceAs (Std.TransCmp (compareLex _ _))

instance : Std.LawfulEqOrd Shortlex where
  compare_self := Std.ReflCmp.compare_self
  eq_of_compare {a b} h := by
    have hbytes := (compareLex_eq_eq.mp h).2
    exact congrArg Shortlex.mk (Std.LawfulEqCmp.eq_of_compare (α := Bytes) hbytes)

/-- A part of a name: a run of digits without its leading zeros, or another byte. A run takes the
place of the digits among the bytes. -/
structure Part where
  head : UInt8
  digits : Shortlex

instance : Ord Part where
  compare := compareLex (compareOn Part.head) (compareOn Part.digits)

instance : Std.TransOrd Part := inferInstanceAs (Std.TransCmp (compareLex _ _))

instance : Std.LawfulEqOrd Part where
  compare_self := Std.ReflCmp.compare_self
  eq_of_compare {a b} h := by
    obtain ⟨hhead, hdigits⟩ := compareLex_eq_eq.mp h
    obtain ⟨x, xs⟩ := a
    obtain ⟨y, ys⟩ := b
    obtain rfl := Std.LawfulEqCmp.eq_of_compare (α := UInt8) hhead
    obtain rfl := Std.LawfulEqCmp.eq_of_compare (α := Shortlex) hdigits
    rfl

/-- The parts of a name. -/
def parts : Bytes → List Part
  | [] => []
  | x :: xs =>
      if isDigit x then
        ⟨48, ⟨trimZeros ((x :: xs).takeWhile isDigit)⟩⟩ :: parts (xs.dropWhile isDigit)
      else ⟨x, ⟨[]⟩⟩ :: parts xs
termination_by bs => bs.length
decreasing_by
  · have := (List.dropWhile_suffix isDigit (l := xs)).length_le
    simp only [List.length_cons]
    omega
  · simp

theorem compare_run (x y : UInt8) (aa bb : Bytes) :
    compare (⟨x, ⟨aa⟩⟩ : Part) ⟨y, ⟨bb⟩⟩ = (compare x y).then (shortlex aa bb) := rfl

theorem isDigit_iff {b : UInt8} : isDigit b = true ↔ 48 ≤ b ∧ b ≤ 57 := by
  simp [isDigit]

/-- A digit compares to another byte as a run of digits does. -/
theorem compare_digit {x y : UInt8} (hx : isDigit x = true) (hy : isDigit y = false) :
    compare 48 y = compare x y ∧ compare y 48 = compare y x ∧ compare x y ≠ .eq := by
  have hx := isDigit_iff.mp hx
  have hy : ¬(48 ≤ y ∧ y ≤ 57) := fun h => by rw [isDigit_iff.mpr h] at hy; cases hy
  have h48 : (48 : UInt8).toNat = 48 := rfl
  have h57 : (57 : UInt8).toNat = 57 := rfl
  simp only [UInt8.le_iff_toNat_le, h48, h57] at hx hy
  show compareOfLessAndEq 48 y = compareOfLessAndEq x y ∧
    compareOfLessAndEq y 48 = compareOfLessAndEq y x ∧ compareOfLessAndEq x y ≠ .eq
  simp only [compareOfLessAndEq, UInt8.lt_iff_toNat_lt, ← UInt8.toNat_inj, h48]
  rcases Nat.lt_or_ge y.toNat 48 with h | h
  · simp [show ¬48 < y.toNat by omega, show ¬x.toNat < y.toNat by omega,
      show x.toNat ≠ y.toNat by omega, show y.toNat < x.toNat by omega,
      show (48 : Nat) ≠ y.toNat by omega, h]
  · simp [show 48 < y.toNat by omega, show x.toNat < y.toNat by omega,
      show ¬y.toNat < x.toNat by omega, show y.toNat ≠ 48 by omega,
      show y.toNat ≠ x.toNat by omega, show ¬y.toNat < 48 by omega]

/-- A run of digits is one part. -/
theorem parts_digit {x : UInt8} {xs : Bytes} (h : isDigit x = true) :
    parts (x :: xs) = ⟨48, ⟨trimZeros ((x :: xs).takeWhile isDigit)⟩⟩
      :: parts (xs.dropWhile isDigit) := by
  rw [parts, if_pos h]

/-- Another byte is a part of its own. -/
theorem parts_other {x : UInt8} {xs : Bytes} (h : isDigit x = false) :
    parts (x :: xs) = ⟨x, ⟨[]⟩⟩ :: parts xs := by
  rw [parts, if_neg (by simp [h])]

/-- Outside of two runs of digits the first parts compare as the first bytes do. -/
theorem compare_parts {x y : UInt8} (xs ys : Bytes) (h : ¬(isDigit x && isDigit y) = true) :
    ∃ p ps q qs, parts (x :: xs) = p :: ps ∧ parts (y :: ys) = q :: qs ∧
      compare p q = compare x y ∧ (compare x y = .eq → ps = parts xs ∧ qs = parts ys) := by
  cases hx : isDigit x with
  | false =>
      cases hy : isDigit y with
      | false =>
          refine ⟨_, _, _, _, parts_other hx, parts_other hy, ?_, fun _ => ⟨rfl, rfl⟩⟩
          rw [compare_run]
          cases compare x y <;> rfl
      | true =>
          obtain ⟨-, heq, hne⟩ := compare_digit hy hx
          have hne : compare x y ≠ .eq := fun h =>
            hne (Std.OrientedCmp.eq_comm.mp h)
          refine ⟨_, _, _, _, parts_other hx, parts_digit hy, ?_, fun h => absurd h hne⟩
          rw [compare_run, heq]
          cases hc : compare x y with
          | eq => exact absurd hc hne
          | lt | gt => rfl
  | true =>
      have hy : isDigit y = false := by simpa [hx] using h
      obtain ⟨heq, -, hne⟩ := compare_digit hx hy
      refine ⟨_, _, _, _, parts_digit hx, parts_other hy, ?_, fun h => absurd h hne⟩
      rw [compare_run, heq]
      cases hc : compare x y with
      | eq => exact absurd hc hne
      | lt | gt => rfl

/-- `natural_cmp` compares at the first difference of the parts, and else by length and bytes. -/
theorem naturalLoop_eq (a b xs ys : Bytes) :
    naturalLoop a b xs ys = firstDifference (shortlex a b) (parts xs) (parts ys) := by
  fun_induction naturalLoop a b xs ys with
  | case1 x xs y ys hd aa bb heq ih =>
      obtain ⟨hx, hy⟩ := Bool.and_eq_true_iff.mp hd
      rw [parts_digit hx, parts_digit hy, firstDifference_of_eq, ih]
      rw [compare_run, heq]
      rfl
  | case2 x xs y ys hd aa bb hne =>
      obtain ⟨hx, hy⟩ := Bool.and_eq_true_iff.mp hd
      have hcompare : compare (⟨48, ⟨aa⟩⟩ : Part) ⟨48, ⟨bb⟩⟩ = shortlex aa bb := rfl
      rw [parts_digit hx, parts_digit hy, firstDifference_of_ne] <;> rw [hcompare]
      exact hne
  | case3 x xs y ys hd heq ih =>
      obtain ⟨p, ps, q, qs, hp, hq, hcompare, hrest⟩ := compare_parts xs ys hd
      obtain ⟨rfl, rfl⟩ := hrest heq
      rw [ih, hp, hq, firstDifference_of_eq (hcompare.trans heq)]
  | case4 x xs y ys hd hne =>
      obtain ⟨p, ps, q, qs, hp, hq, hcompare, -⟩ := compare_parts xs ys hd
      rw [hp, hq, firstDifference_of_ne (by rw [hcompare]; exact hne), hcompare]
  | case5 xs ys hend =>
      refine (Comparable.firstDifference ?_).symm
      match xs, ys, hend with
      | [], ys, _ => exact .inl (by rw [parts]; exact List.nil_prefix)
      | x :: xs, [], _ => exact .inr (by rw [parts]; exact List.nil_prefix)
      | x :: xs, y :: ys, hend => exact absurd rfl (hend x xs y ys rfl)

/-! ## The order of the names -/

def nameParts (name : String) : List Part := parts (asBytes name)

def nameBytes (name : String) : Shortlex := ⟨asBytes name⟩

/-- A name is determined by its bytes. -/
theorem nameBytes_injective : Function.Injective nameBytes := by
  intro a b h
  have hbytes : a.toByteArray.data.toList = b.toByteArray.data.toList := congrArg Shortlex.bytes h
  exact String.toByteArray_inj.mp (ByteArray.ext (Array.toList_inj.mp hbytes))

/-- `natural_cmp` compares the parts of the names, and then their bytes. -/
theorem naturalCmp_eq (a b : String) :
    naturalCmp a b
      = firstDifference (compare (nameBytes a) (nameBytes b)) (nameParts a) (nameParts b) :=
  naturalLoop_eq _ _ _ _

/-- A name is less if it precedes by its parts or, where these do not differ, by its bytes. -/
theorem naturalCmp_lt_iff {a b : String} :
    naturalCmp a b = .lt ↔ Precedes nameParts nameBytes a b := by
  rw [naturalCmp_eq, firstDifference_lt_iff, Precedes]

/-- `natural_cmp` answers `Equal` only for equal names. -/
theorem naturalCmp_eq_iff {a b : String} : naturalCmp a b = .eq ↔ a = b := by
  rw [naturalCmp_eq, firstDifference_eq_iff]
  constructor
  · rintro ⟨-, h⟩
    exact nameBytes_injective (Std.LawfulEqCmp.eq_of_compare h)
  · rintro rfl
    exact ⟨.inl (List.prefix_refl _), Std.ReflCmp.compare_self⟩

/-- `natural_cmp` is antisymmetric. -/
theorem naturalCmp_swap (a b : String) : naturalCmp b a = (naturalCmp a b).swap := by
  rw [naturalCmp_eq, naturalCmp_eq, ← firstDifference_swap]
  congr 1
  exact Std.OrientedCmp.eq_swap

/-- The names on which `cmp` is a total order. -/
structure TotalOn (cmp : String → String → Ordering) (names : List String) : Prop where
  refl : ∀ a ∈ names, cmp a a = .eq
  antisymm : ∀ a ∈ names, ∀ b ∈ names, cmp b a = (cmp a b).swap
  trans : ∀ a ∈ names, ∀ b ∈ names, ∀ c ∈ names,
    (cmp a b).isLE → (cmp b c).isLE → (cmp a c).isLE
  eq : ∀ a ∈ names, ∀ b ∈ names, cmp a b = .eq → a = b

/-- A name whose parts begin two others of the list, one shorter or smaller by its bytes, one longer
or greater, which stand the other way round at their first difference. -/
def Straddled (names : List String) : Prop :=
  ∃ x ∈ names, ∃ y ∈ names, ∃ z ∈ names, Straddles nameParts nameBytes x y z

/-- `natural_cmp` is a total order of names exactly when none of them is straddled. -/
theorem totalOn_naturalCmp_iff (names : List String) :
    TotalOn naturalCmp names ↔ ¬Straddled names := by
  have htrans : _ ↔ ∀ x y z, x ∈ names → y ∈ names → z ∈ names →
      ¬Straddles nameParts nameBytes x y z :=
    precedes_trans_iff nameBytes_injective (· ∈ names)
  constructor
  · rintro h ⟨x, hx, y, hy, z, hz, hs⟩
    refine htrans.mp (fun a b c ha hb hc hab hbc => ?_) x y z hx hy hz hs
    have hab := naturalCmp_lt_iff.mpr hab
    have hbc := naturalCmp_lt_iff.mpr hbc
    have hac := h.trans a ha b hb c hc (by simp [hab]) (by simp [hbc])
    cases hcmp : naturalCmp a c with
    | lt => exact naturalCmp_lt_iff.mp hcmp
    | gt => rw [hcmp] at hac; cases hac
    | eq =>
        -- then `b` lies strictly between `a` and itself
        obtain rfl := naturalCmp_eq_iff.mp hcmp
        rw [naturalCmp_swap, hab] at hbc
        cases hbc
  · intro hnone
    have hlt := htrans.mpr fun x y z hx hy hz hs => hnone ⟨x, hx, y, hy, z, hz, hs⟩
    refine ⟨fun a _ => naturalCmp_eq_iff.mpr rfl, fun a _ b _ => naturalCmp_swap a b,
      fun a ha b hb c hc hab hbc => ?_, fun a _ b _ => naturalCmp_eq_iff.mp⟩
    cases hcab : naturalCmp a b with
    | gt => rw [hcab] at hab; cases hab
    | eq => rwa [naturalCmp_eq_iff.mp hcab]
    | lt =>
        cases hcbc : naturalCmp b c with
        | gt => rw [hcbc] at hbc; cases hbc
        | eq => rw [← naturalCmp_eq_iff.mp hcbc]; exact hab
        | lt =>
            have := naturalCmp_lt_iff.mpr (hlt a b c ha hb hc (naturalCmp_lt_iff.mp hcab)
              (naturalCmp_lt_iff.mp hcbc))
            simp [this]

/-! ## The list of files -/

/-- What the standard library promises of `sort_by`: names on which the comparison is a total order
come out in that order. It promises nothing about others. -/
def Sorts (sortBy : SortBy) : Prop :=
  ∀ cmp names, TotalOn cmp names →
    (sortBy cmp names).Perm names ∧ (sortBy cmp names).Pairwise fun a b => (cmp a b).isLE

/-- Merge sort keeps the promise. -/
theorem sorts_mergeSort : Sorts fun cmp names =>
    (names.attach.mergeSort fun a b => (cmp a.1 b.1).isLE).map Subtype.val := by
  intro cmp names h
  constructor
  · have := (List.mergeSort_perm names.attach fun a b => (cmp a.1 b.1).isLE).map Subtype.val
    rwa [List.attach_map_subtype_val] at this
  · refine List.pairwise_map.mpr (List.pairwise_mergeSort ?_ ?_ _)
    · intro a b c
      exact h.trans a.1 a.2 b.1 b.2 c.1 c.2
    · intro a b
      rw [h.antisymm a.1 a.2 b.1 b.2]
      cases cmp a.1 b.1 <;> rfl

/-- The same pattern, its matching paths listed in another order. -/
structure Relisted (pattern relisted : Pattern) : Prop where
  text : relisted.text = pattern.text
  remote : relisted.remote = pattern.remote
  isFile : relisted.isFile = pattern.isFile
  listing : relisted.listing = pattern.listing ∨
    ∃ before after, pattern.listing = .ok before ∧ relisted.listing = .ok after ∧
      after.Perm before

/-- A total order leaves one arrangement of the names. -/
theorem sortBy_perm {sortBy : SortBy} (hsort : Sorts sortBy) {cmp : String → String → Ordering}
    {names names' : List String} (h : TotalOn cmp names) (hperm : names'.Perm names) :
    sortBy cmp names' = sortBy cmp names := by
  have hmem : ∀ a, a ∈ names' ↔ a ∈ names := fun a => hperm.mem_iff
  have h' : TotalOn cmp names' := by
    obtain ⟨hrefl, hanti, htrans, heq⟩ := h
    simp only [← hmem] at hrefl hanti htrans heq
    exact ⟨hrefl, hanti, htrans, heq⟩
  obtain ⟨hp, hs⟩ := hsort cmp names h
  obtain ⟨hp', hs'⟩ := hsort cmp names' h'
  refine List.Perm.eq_of_pairwise (fun a b ha hb hab hba => ?_) hs' hs
    (hp'.trans (hperm.trans hp.symm))
  have ha := (hmem a).mp (hp'.mem_iff.mp ha)
  have hb := hp.mem_iff.mp hb
  rw [h.antisymm a ha b hb] at hba
  refine h.eq a ha b hb ?_
  cases hc : cmp a b with
  | eq => rfl
  | lt => rw [hc] at hba; cases hba
  | gt => rw [hc] at hab; cases hab

/-- Where `natural_cmp` is total on the names, the expansion of a pattern does not depend on the
order of the directory. -/
theorem expand_relisted {sortBy : SortBy} (hsort : Sorts sortBy) (style : PatternStyle)
    {pattern relisted : Pattern} (htotal : TotalOn naturalCmp pattern.names)
    (h : Relisted pattern relisted) :
    expand sortBy style relisted = expand sortBy style pattern := by
  obtain ⟨htext, hremote, hisFile, hlisting⟩ := h
  rcases hlisting with hlisting | ⟨before, after, hbefore, hafter, hperm⟩
  · unfold expand
    rw [htext, hremote, hisFile, hlisting]
  · have hretained : (retained after).Perm (retained before) := (hperm.filter _).map _
    simp only [Pattern.names, hbefore] at htotal
    unfold expand
    rw [htext, hremote, hisFile, hbefore, hafter]
    simp only [bind, Except.bind]
    rw [sortBy_perm hsort htotal hretained]
    simp only [List.isEmpty_iff, ← List.length_eq_zero_iff, hretained.length_eq]

/-- Neither does the list of files. -/
theorem files_relisted {sortBy : SortBy} (hsort : Sorts sortBy) (style : PatternStyle)
    {patterns relisted : List Pattern} (h : List.Forall₂ Relisted patterns relisted)
    (htotal : ∀ pattern ∈ patterns, TotalOn naturalCmp pattern.names) :
    files sortBy style relisted = files sortBy style patterns := by
  induction h with
  | nil => rfl
  | @cons pattern relisted patterns relisteds hhead _ ih =>
      have hfirst := expand_relisted hsort style (htotal pattern (by simp)) hhead
      have hrest := ih fun p hp => htotal p (by simp [hp])
      unfold files
      rw [hfirst, hrest]

/-- The comparison is a total order of the names that match each pattern, and the list of files does
not depend on the order of any listing, exactly when none of the names is straddled. -/
theorem files_order_iff (patterns : List Pattern) :
    ((∀ pattern ∈ patterns, TotalOn naturalCmp pattern.names) ∧
      ∀ sortBy, Sorts sortBy → ∀ style relisted, List.Forall₂ Relisted patterns relisted →
        files sortBy style relisted = files sortBy style patterns) ↔
    ∀ pattern ∈ patterns, ¬Straddled pattern.names := by
  constructor
  · rintro ⟨htotal, -⟩ pattern hmem
    exact (totalOn_naturalCmp_iff pattern.names).mp (htotal pattern hmem)
  · intro hnone
    have htotal : ∀ pattern ∈ patterns, TotalOn naturalCmp pattern.names := fun pattern hmem =>
      (totalOn_naturalCmp_iff pattern.names).mpr (hnone pattern hmem)
    exact ⟨htotal, fun sortBy hsort style relisted h => files_relisted hsort style h htotal⟩

/-- Three names that `natural_cmp` puts in a circle: the leading zeros of the first make it longer
than the last, and its parts begin both others. -/
theorem naturalCmp_cycle :
    naturalCmp "data001" "data1-old" = .lt ∧ naturalCmp "data1-old" "data1b" = .lt ∧
    naturalCmp "data1b" "data001" = .lt ∧
    ¬TotalOn naturalCmp ["data001", "data1-old", "data1b"] := by
  have h1 : asBytes "data001" = [100, 97, 116, 97, 48, 48, 49] := by decide
  have h2 : asBytes "data1-old" = [100, 97, 116, 97, 49, 45, 111, 108, 100] := by decide
  have h3 : asBytes "data1b" = [100, 97, 116, 97, 49, 98] := by decide
  have h12 : naturalCmp "data001" "data1-old" = .lt := by
    simp [naturalCmp, h1, h2, naturalLoop, isDigit, trimZeros, shortlex]
    decide
  have h23 : naturalCmp "data1-old" "data1b" = .lt := by
    simp [naturalCmp, h2, h3, naturalLoop, isDigit, trimZeros, shortlex]
    decide
  have h31 : naturalCmp "data1b" "data001" = .lt := by
    simp [naturalCmp, h3, h1, naturalLoop, isDigit, trimZeros, shortlex]
    decide
  refine ⟨h12, h23, h31, fun h => ?_⟩
  have h13 := h.trans "data001" (by simp) "data1-old" (by simp) "data1b" (by simp) (by simp [h12])
    (by simp [h23])
  rw [naturalCmp_swap, h31] at h13
  cases h13

end Velr.Import
