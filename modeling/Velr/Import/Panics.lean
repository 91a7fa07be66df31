import Velr.Import.Values

/-!
# Where parsing panics

A text that starts with a quote and ends with one may be the quote alone (`LoneQuote`); `map` then
slices it from behind its end. Headers and values panic there and nowhere else
(`parsing_panics_iff`).
-/

namespace Velr.Import

open Csv
open FirstWins (Map)
open IdMap (Failure)
open Results (bind_eq_error_iff bind_eq_ok_iff map_eq_error_iff map_eq_ok_iff)

theorem invalid_ne_panic {α : Type} (message : String) :
    (invalid message : Except (Failure String) α) ≠ .error .panic := nofun

/-- A parser from outside does not panic. -/
theorem external_ne_panic {α : Type} (x : Except String α) : external x ≠ .error .panic := by
  cases x with
  | error e => exact nofun
  | ok a => exact nofun

/-! ## Option maps -/

/-- A quote alone. -/
def LoneQuote (value : List Char) : Prop := value = ['\''] ∨ value = ['"']

/-- `map` takes a value for quoted if it begins and ends with the quote, which one quote does. -/
theorem isQuoted_iff {quote : Char} {value : List Char} :
    isQuoted quote value = true ↔
      value = [quote] ∨ ∃ inner, value = quote :: (inner ++ [quote]) := by
  rw [isQuoted, decide_eq_true_iff]
  constructor
  · rintro ⟨hhead, hlast⟩
    cases value with
    | nil => cases hhead
    | cons first rest =>
        cases hhead
        rcases List.eq_nil_or_concat' rest with rfl | ⟨inner, last, rfl⟩
        · exact .inl rfl
        · rw [← List.cons_append, List.getLast?_concat, Option.some.injEq] at hlast
          exact .inr ⟨inner, by rw [hlast]⟩
  · rintro (rfl | ⟨inner, rfl⟩)
    · exact ⟨rfl, rfl⟩
    · exact ⟨rfl, by rw [← List.cons_append, List.getLast?_concat]⟩

/-- The slice between two quotes is one, unless there is one quote only. -/
theorem slice_quoted {quote : Char} (hsize : quote.utf8Size = 1) {value : List Char}
    (h : isQuoted quote value = true) :
    StrSlice.slice value 1 (StrSlice.len value - 1) = none ↔ value = [quote] := by
  rcases isQuoted_iff.mp h with rfl | ⟨inner, rfl⟩
  · rw [StrSlice.slice, if_pos (by rw [StrSlice.len_cons, hsize]; decide)]
    exact ⟨fun _ => rfl, fun _ => rfl⟩
  · have hat : StrSlice.At (quote :: (inner ++ [quote])) 1 (inner ++ [quote]) :=
      ⟨[quote], rfl, by rw [StrSlice.len_cons, hsize]; rfl⟩
    have hstop : StrSlice.len (quote :: (inner ++ [quote])) - 1 = 1 + StrSlice.len inner := by
      rw [StrSlice.len_cons, StrSlice.len_append, StrSlice.len_cons, hsize, StrSlice.len_nil]
      omega
    rw [hstop, hat.slice]
    constructor
    · rintro ⟨⟩
    · intro heq
      rw [List.cons.injEq, List.append_eq_nil_iff] at heq
      cases heq.2.2

/-- Such a value has no slice. -/
theorem optionValue_eq_none {value : List Char} : optionValue value = none ↔ LoneQuote value := by
  rw [optionValue]
  by_cases hsingle : isQuoted '\'' value = true
  · rw [if_pos (.inl hsingle), slice_quoted (by decide) hsingle, LoneQuote]
    refine (or_iff_left fun hdouble => ?_).symm
    rw [hdouble] at hsingle
    exact absurd hsingle (by decide)
  · by_cases hdouble : isQuoted '"' value = true
    · rw [if_pos (.inr hdouble), slice_quoted (by decide) hdouble, LoneQuote]
      refine (or_iff_right fun heq => ?_).symm
      rw [heq] at hdouble
      exact absurd hdouble (by decide)
    · rw [if_neg (not_or.mpr ⟨hsingle, hdouble⟩)]
      refine ⟨nofun, fun hlone => ?_⟩
      rcases hlone with rfl | rfl
      · exact absurd (by decide) hsingle
      · exact absurd (by decide) hdouble

/-- The key and the value of an item. -/
def itemOf (item : List Char) : Option (String × List Char) :=
  (splitOnce ':' item).map fun (k, v) => (.ofList (Whitespace.trim k), Whitespace.trim v)

/-- Items that come to a lone quote: those in front of it are items, without a lone quote and with
keys of their own. -/
def LoneQuoted (items : List (List Char)) : Prop :=
  ∃ (entries : List (String × List Char)) (key : String) (value : List Char)
    (back : List (Option (String × List Char))),
    items.map itemOf = entries.map some ++ some (key, value) :: back ∧
    (∀ entry ∈ entries, ¬LoneQuote entry.2) ∧ (entries.map Prod.fst).Nodup ∧ LoneQuote value

/-- The items of a map panic exactly at a lone quote behind entries that are well formed. -/
theorem mapItems_panic_iff {items : List (List Char)} {values : List (String × String)} :
    mapItems items values = .error .panic ↔
      ∃ (entries : List (String × List Char)) (key : String) (value : List Char)
        (back : List (Option (String × List Char))),
      items.map itemOf = entries.map some ++ some (key, value) :: back ∧
      (∀ entry ∈ entries, ¬LoneQuote entry.2) ∧
      ((entries.map Prod.fst).Nodup ∧ ∀ entry ∈ entries, values.lookup entry.1 = none) ∧
      LoneQuote value := by
  induction items generalizing values with
  | nil =>
      refine ⟨nofun, ?_⟩
      rintro ⟨entries, key, value, back, hsplit, -⟩
      cases entries <;> cases hsplit
  | cons item items ih =>
      rw [mapItems, List.map_cons]
      cases hitem : splitOnce ':' item with
      | none =>
          have hnone : itemOf item = none := by rw [itemOf, hitem]; rfl
          rw [hnone]
          refine ⟨fun h => absurd h (invalid_ne_panic _), ?_⟩
          rintro ⟨entries, key, value, back, hsplit, -⟩
          cases entries <;> cases hsplit
      | some split =>
          obtain ⟨k, v⟩ := split
          have hsome : itemOf item =
              some (String.ofList (Whitespace.trim k), Whitespace.trim v) := by
            rw [itemOf, hitem]
            rfl
          rw [hsome]
          dsimp only
          cases hvalue : optionValue (Whitespace.trim v) with
          | none =>
              have hlone := optionValue_eq_none.mp hvalue
              exact ⟨fun _ => ⟨[], _, _, _, rfl, fun _ hentry => (nomatch hentry),
                ⟨.nil, fun _ hentry => (nomatch hentry)⟩, hlone⟩, fun _ => rfl⟩
          | some text =>
              have hplain : ¬LoneQuote (Whitespace.trim v) := by
                rw [← optionValue_eq_none, hvalue]
                nofun
              dsimp only
              generalize String.ofList (Whitespace.trim k) = key at *
              split
              · next hdup =>
                  refine ⟨fun h => absurd h (invalid_ne_panic _), ?_⟩
                  rintro ⟨_ | ⟨entry, entries⟩, key', value, back, hsplit, -, ⟨-, hfresh⟩, hlone⟩
                  · cases hsplit
                    exact absurd hlone hplain
                  · rw [List.map_cons, List.cons_append, List.cons.injEq,
                      Option.some.injEq] at hsplit
                    obtain ⟨rfl, -⟩ := hsplit
                    rw [hfresh _ List.mem_cons_self] at hdup
                    cases hdup
              · next hnew =>
                  have hnone : values.lookup key = none :=
                    Option.not_isSome_iff_eq_none.mp hnew
                  have hlookup :
                    ∀ key', (values ++ [(key, String.ofList text)]).lookup key' = none ↔
                      values.lookup key' = none ∧ key' ≠ key := by
                    intro key'
                    rw [List.lookup_append, Option.or_eq_none_iff, List.lookup_cons,
                      List.lookup_nil]
                    refine and_congr_right fun _ => ?_
                    cases hkey : key' == key with
                    | true => exact ⟨nofun, fun hne => absurd (eq_of_beq hkey) hne⟩
                    | false => exact ⟨fun _ => ne_of_beq_false hkey, fun _ => rfl⟩
                  rw [ih]
                  constructor
                  · rintro ⟨entries, key', value, back, hsplit, hentries, ⟨hnodup, hfresh⟩, hlone⟩
                    refine ⟨(key, Whitespace.trim v) :: entries, key', value, back, ?_, ?_,
                      ⟨?_, ?_⟩, hlone⟩
                    · rw [hsplit]
                      rfl
                    · rw [List.forall_mem_cons]
                      exact ⟨hplain, hentries⟩
                    · rw [List.map_cons, List.nodup_cons]
                      refine ⟨fun hmem => ?_, hnodup⟩
                      obtain ⟨entry, hentry, heq⟩ := List.mem_map.mp hmem
                      exact ((hlookup _).mp (hfresh entry hentry)).2 heq
                    · rw [List.forall_mem_cons]
                      exact ⟨hnone, fun entry hentry => ((hlookup _).mp (hfresh entry hentry)).1⟩
                  · rintro ⟨_ | ⟨entry, entries⟩, key', value, back, hsplit, hentries,
                      ⟨hnodup, hfresh⟩, hlone⟩
                    · cases hsplit
                      exact absurd hlone hplain
                    · rw [List.map_cons, List.cons_append, List.cons.injEq,
                        Option.some.injEq] at hsplit
                      obtain ⟨rfl, hsplit⟩ := hsplit
                      rw [List.forall_mem_cons] at hentries hfresh
                      rw [List.map_cons, List.nodup_cons] at hnodup
                      refine ⟨entries, key', value, back, hsplit, hentries.2,
                        ⟨hnodup.2, fun entry hentry => (hlookup _).mpr ⟨hfresh.2 entry hentry, ?_⟩⟩,
                        hlone⟩
                      exact fun heq => hnodup.1 (List.mem_map.mpr ⟨entry, hentry, heq⟩)

/-- `map` panics exactly at such an entry. -/
theorem map_panic_iff {text : List Char} :
    map text = .error .panic ↔ LoneQuoted (text.splitOn ',') := by
  rw [map, mapItems_panic_iff]
  constructor
  · rintro ⟨entries, key, value, back, hsplit, hentries, ⟨hnodup, -⟩, hlone⟩
    exact ⟨entries, key, value, back, hsplit, hentries, hnodup, hlone⟩
  · rintro ⟨entries, key, value, back, hsplit, hentries, hnodup, hlone⟩
    exact ⟨entries, key, value, back, hsplit, hentries, ⟨hnodup, fun _ _ => rfl⟩, hlone⟩

/-! ## Types -/

/-- The type of a column does not panic. -/
theorem parseType_ne_panic (name : String) (options : List (String × String)) :
    ValueType.parse name options ≠ .error .panic := by
  rw [ValueType.parse]
  split
  split
  · exact invalid_ne_panic _
  · exact nofun

/-- It is one of the types there are. -/
theorem parseType_known {name : String} {options : List (String × String)} {type : ValueType}
    (h : ValueType.parse name options = .ok type) : type.Known := by
  rw [ValueType.parse] at h
  split at h
  split at h
  · cases h
  · next hname =>
      cases h
      exact ⟨not_not.mp hname, rfl⟩

/-- The default type of ids is a type of ids. -/
theorem defaultIdType_ofIds {opts : HeaderOptions} {type : ValueType}
    (h : defaultIdType opts = .ok type) : type.OfIds := by
  rw [defaultIdType] at h
  split at h
  · cases h
    exact ⟨by decide, by decide⟩
  · cases h
    exact ⟨by decide, by decide⟩

/-! ## Headers -/

/-- The text of the option map in a header cell. -/
def optionsText (cell : Cell) : Option (List Char) :=
  let text := (trim cell.text).toList
  let definition := ((splitOnce ':' text).getD (text, "string".toList)).2
  (splitOnce '{' definition).bind fun split => stripSuffix '}' split.2

/-- A header cell with an option map that comes to a lone quote. -/
def HeaderQuoted (cell : Cell) : Prop :=
  ∃ contents, optionsText cell = some contents ∧ LoneQuoted (contents.splitOn ',')

/-- The options of a header cell panic exactly at a lone quote. -/
theorem headerSettings_panic_iff {text : String} {definition : List Char} :
    headerSettings text definition = .error .panic ↔
      ∃ contents, ((splitOnce '{' definition).bind fun split => stripSuffix '}' split.2) =
        some contents ∧ LoneQuoted (contents.splitOn ',') := by
  rw [headerSettings]
  cases splitOnce '{' definition with
  | none => exact ⟨nofun, nofun⟩
  | some split =>
      obtain ⟨base, tail⟩ := split
      rw [Option.bind_some]
      dsimp only
      cases stripSuffix '}' tail with
      | none => exact ⟨fun h => absurd h (invalid_ne_panic _), nofun⟩
      | some contents =>
          dsimp only
          rw [map_eq_error_iff, map_panic_iff]
          constructor
          · exact fun h => ⟨contents, rfl, h⟩
          · rintro ⟨_, ⟨⟩, h⟩
            exact h

/-- The group of a header cell does not panic. -/
theorem headerGroup_ne_panic (text : String) (base : List Char) :
    headerGroup text base ≠ .error .panic := by
  rw [headerGroup]
  split
  · split
    · exact nofun
    · exact invalid_ne_panic _
  · exact nofun

/-- A header cell panics exactly in its options. -/
theorem headerCell_panic_iff {cell : Cell} :
    headerCell cell = .error .panic ↔ HeaderQuoted cell := by
  rw [headerCell, bind_eq_error_iff, headerSettings_panic_iff]
  refine or_iff_left fun ⟨⟨base, settings⟩, _, hrest⟩ => ?_
  exact Results.bind_ne_error (headerGroup_ne_panic _ _) (fun ⟨_, _⟩ _ => nofun) hrest

/-- Every group has a type of ids. -/
def OfIds (groups : Map String ValueType) : Prop :=
  ∀ group type, groups.find group = some type → type.OfIds

section
variable {opts : HeaderOptions} {st st' : Columns} {c : HeaderCell} {index : Nat}
    {relationship : Bool}

theorem sameGroup_ne_panic (current : Option String) (group name : String) :
    sameGroup current group name ≠ .error .panic := by
  rw [sameGroup]
  split
  · exact invalid_ne_panic _
  · exact nofun

theorem addProperty_ne_panic (st : Columns) (index : Nat) (name : String) :
    st.addProperty index name ≠ .error .panic := by
  rw [Columns.addProperty]
  split
  · exact invalid_ne_panic _
  · exact nofun

/-- A property column adds no group. -/
theorem addProperty_groups {name : String} (h : st.addProperty index name = .ok st') :
    st'.groups = st.groups ∧ st'.columns = st.columns := by
  rw [Columns.addProperty] at h
  split at h
  · cases h
  · cases h
    exact ⟨rfl, rfl⟩

theorem addIdProperty_ne_panic (opts : HeaderOptions) (st : Columns) (index : Nat) (name : String) :
    st.addIdProperty opts index name ≠ .error .panic := by
  rw [Columns.addIdProperty]
  split
  · exact addProperty_ne_panic st index name
  · exact nofun

/-- The property of an id column adds no group. -/
theorem addIdProperty_groups {name : String} (h : st.addIdProperty opts index name = .ok st') :
    st'.groups = st.groups ∧ st'.columns = st.columns := by
  rw [Columns.addIdProperty] at h
  split at h
  · exact addProperty_groups h
  · cases h
    exact ⟨rfl, rfl⟩

theorem defaultIdType_ne_panic (opts : HeaderOptions) : defaultIdType opts ≠ .error .panic :=
  parseType_ne_panic _ _

theorem idColumnType_ne_panic (opts : HeaderOptions) (c : HeaderCell) (st : Columns) :
    st.idColumnType opts c ≠ .error .panic := by
  rw [Columns.idColumnType]
  refine Results.bind_ne_error ?_ fun type _ => ?_
  · rw [Columns.declaredIdType]
    split
    · exact parseType_ne_panic _ _
    · split
      · rintro ⟨⟩
      · exact defaultIdType_ne_panic opts
  · split
    · exact invalid_ne_panic _
    · split
      · split
        · exact invalid_ne_panic _
        · rintro ⟨⟩
      · rintro ⟨⟩

/-- The type of an id column is one of ids, and the group's. -/
theorem idColumnType_ok {type : ValueType} (hgroups : OfIds st.groups)
    (h : st.idColumnType opts c = .ok (type, st')) :
    type.OfIds ∧ OfIds st'.groups ∧ st'.columns = st.columns := by
  obtain ⟨type', htype, h⟩ := bind_eq_ok_iff.mp h
  split at h
  · cases h
  · next hids =>
      rw [not_or, not_not] at hids
      have hrange : type'.integerRange = rangeOf type'.name := by
        rw [Columns.declaredIdType] at htype
        split at htype
        · exact (parseType_known htype).range
        · split at htype
          · next existing hfind =>
              cases htype
              exact (hgroups _ _ hfind).range
          · exact (defaultIdType_ofIds htype).range
      have hofIds : type'.OfIds := ⟨hids.2, hrange⟩
      split at h
      · split at h
        · cases h
        · cases h
          exact ⟨hofIds, hgroups, rfl⟩
      · cases h
        refine ⟨hofIds, fun group type'' hfind => ?_, rfl⟩
        dsimp only at hfind
        rw [FirstWins.find_insert, Option.or_eq_some_iff] at hfind
        rcases hfind with hold | ⟨-, hnew⟩
        · exact hgroups _ _ hold
        · rw [FirstWins.firstOf_cons] at hnew
          split at hnew
          · cases hnew
            exact hofIds
          · cases hnew

theorem endpointType_ne_panic (opts : HeaderOptions) (c : HeaderCell) (st : Columns) :
    st.endpointType opts c ≠ .error .panic :=
  Results.map_ne_error (defaultIdType_ne_panic opts)

/-- The type of an endpoint is a type of ids. -/
theorem endpointType_ok {type : ValueType} (hgroups : OfIds st.groups)
    (h : st.endpointType opts c = .ok type) : type.OfIds := by
  obtain ⟨default, hdefault, rfl⟩ := map_eq_ok_iff.mp h
  cases hfind : st.groups.find c.group with
  | none => exact defaultIdType_ofIds hdefault
  | some existing => exact hgroups _ _ hfind

/-- A column's kind is settled without a panic. -/
theorem kind_ne_panic (opts : HeaderOptions) (relationship : Bool) (index : Nat) (c : HeaderCell)
    (st : Columns) : st.kind opts relationship index c ≠ .error .panic := by
  rw [Columns.kind]
  split
  · split
    · exact invalid_ne_panic _
    · refine Results.bind_ne_error (sameGroup_ne_panic _ _ _) fun _ _ => ?_
      refine Results.bind_ne_error (idColumnType_ne_panic _ _ _) fun ⟨_, _⟩ _ => ?_
      exact Results.bind_ne_error (addIdProperty_ne_panic _ _ _ _) fun _ _ => nofun
  · split
    · exact invalid_ne_panic _
    · refine Results.bind_ne_error (sameGroup_ne_panic _ _ _) fun _ _ => ?_
      exact Results.bind_ne_error (endpointType_ne_panic _ _ _) fun _ _ => nofun
  · split
    · exact invalid_ne_panic _
    · refine Results.bind_ne_error (sameGroup_ne_panic _ _ _) fun _ _ => ?_
      exact Results.bind_ne_error (endpointType_ne_panic _ _ _) fun _ _ => nofun
  · split
    · exact invalid_ne_panic _
    · exact nofun
  · split
    · exact invalid_ne_panic _
    · split
      · exact invalid_ne_panic _
      · exact nofun
  · exact nofun
  · split
    · exact invalid_ne_panic _
    · split
      · exact invalid_ne_panic _
      · refine Results.bind_ne_error (addProperty_ne_panic _ _ _) fun _ _ => ?_
        exact Results.bind_ne_error (parseType_ne_panic _ _) fun _ _ => nofun

/-- The kind of a column has types that were parsed. -/
theorem kind_known {kind : Kind} (hgroups : OfIds st.groups)
    (h : st.kind opts relationship index c = .ok (kind, st')) :
    KindKnown kind ∧ OfIds st'.groups ∧ st'.columns = st.columns := by
  rw [Columns.kind] at h
  split at h
  · split at h
    · cases h
    · obtain ⟨idGroup, -, h⟩ := bind_eq_ok_iff.mp h
      obtain ⟨⟨type, st₁⟩, htype, h⟩ := bind_eq_ok_iff.mp h
      obtain ⟨st₂, hproperty, h⟩ := bind_eq_ok_iff.mp h
      cases h
      have hgroups' :
        OfIds ({ st with idGroup, ids := st.ids ++ [index] } : Columns).groups := hgroups
      obtain ⟨hofIds, hgroups₁, hcolumns⟩ := idColumnType_ok hgroups' htype
      obtain ⟨hsame, hcolumns'⟩ := addIdProperty_groups hproperty
      refine ⟨hofIds, ?_, hcolumns'.trans hcolumns⟩
      rw [hsame]
      exact hgroups₁
  · split at h
    · cases h
    · obtain ⟨startGroup, -, h⟩ := bind_eq_ok_iff.mp h
      obtain ⟨type, htype, h⟩ := bind_eq_ok_iff.mp h
      cases h
      exact ⟨endpointType_ok hgroups htype, hgroups, rfl⟩
  · split at h
    · cases h
    · obtain ⟨endGroup, -, h⟩ := bind_eq_ok_iff.mp h
      obtain ⟨type, htype, h⟩ := bind_eq_ok_iff.mp h
      cases h
      exact ⟨endpointType_ok hgroups htype, hgroups, rfl⟩
  · split at h
    · cases h
    · cases h
      exact ⟨trivial, hgroups, rfl⟩
  · split at h
    · cases h
    · split at h
      · cases h
      · cases h
        exact ⟨trivial, hgroups, rfl⟩
  · cases h
    exact ⟨trivial, hgroups, rfl⟩
  · split at h
    · cases h
    · split at h
      · cases h
      · obtain ⟨st₁, hproperty, h⟩ := bind_eq_ok_iff.mp h
        obtain ⟨type, htype, h⟩ := bind_eq_ok_iff.mp h
        cases h
        obtain ⟨hsame, hcolumns⟩ := addProperty_groups hproperty
        refine ⟨parseType_known htype, ?_, hcolumns⟩
        rw [hsame]
        exact hgroups

/-- A round of the loop panics where its cell has a lone quote, whatever came before. -/
theorem next_panic_iff {cell : Cell} :
    st.next opts relationship index cell = .error .panic ↔ HeaderQuoted cell := by
  rw [Columns.next, bind_eq_error_iff, headerCell_panic_iff]
  refine or_iff_left fun ⟨c, _, hrest⟩ => ?_
  exact Results.bind_ne_error (kind_ne_panic _ _ _ _ _) (fun ⟨_, _⟩ _ => nofun) hrest

/-- The loop panics at the first cell with a lone quote, if it comes to it. -/
theorem columnsFrom_panic_iff {cells : List Cell} :
    columnsFrom opts relationship index cells st = .error .panic ↔
      ∃ front cell back, cells = front ++ cell :: back ∧
        (∃ st', columnsFrom opts relationship index front st = .ok st') ∧ HeaderQuoted cell := by
  induction cells generalizing index st with
  | nil =>
      refine ⟨nofun, ?_⟩
      rintro ⟨front, cell, back, hsplit, -⟩
      cases front <;> cases hsplit
  | cons cell cells ih =>
      rw [columnsFrom, bind_eq_error_iff, next_panic_iff]
      constructor
      · rintro (hquoted | ⟨st₁, hnext, hrest⟩)
        · exact ⟨[], cell, cells, rfl, ⟨st, rfl⟩, hquoted⟩
        · obtain ⟨front, cell', back, rfl, ⟨st', hfront⟩, hquoted⟩ := ih.mp hrest
          refine ⟨cell :: front, cell', back, rfl, ⟨st', ?_⟩, hquoted⟩
          exact bind_eq_ok_iff.mpr ⟨st₁, hnext, hfront⟩
      · rintro ⟨_ | ⟨first, front⟩, cell', back, hsplit, ⟨st', hfront⟩, hquoted⟩
        · cases hsplit
          exact .inl hquoted
        · cases hsplit
          obtain ⟨st₁, hnext, hfront⟩ := bind_eq_ok_iff.mp hfront
          exact .inr ⟨st₁, hnext, ih.mpr ⟨front, cell', back, rfl, ⟨st', hfront⟩, hquoted⟩⟩

/-- The columns of a header have known kinds. -/
theorem columnsFrom_known {cells : List Cell} (hgroups : OfIds st.groups)
    (hcolumns : ∀ column ∈ st.columns, KindKnown column.kind)
    (h : columnsFrom opts relationship index cells st = .ok st') :
    OfIds st'.groups ∧ ∀ column ∈ st'.columns, KindKnown column.kind := by
  induction cells generalizing index st with
  | nil =>
      cases h
      exact ⟨hgroups, hcolumns⟩
  | cons cell cells ih =>
      obtain ⟨st₁, hnext, hrest⟩ := bind_eq_ok_iff.mp h
      obtain ⟨c, -, hnext⟩ := bind_eq_ok_iff.mp hnext
      obtain ⟨⟨kind, st₂⟩, hkind, hnext⟩ := bind_eq_ok_iff.mp hnext
      cases hnext
      obtain ⟨hknown, hgroups₂, hsame⟩ := kind_known hgroups hkind
      have hgroups₃ :
          OfIds ({ st₂ with columns := st₂.columns ++ [⟨kind, c.name⟩] } : Columns).groups :=
        hgroups₂
      refine ih hgroups₃ (fun column hcolumn => ?_) hrest
      rw [hsame, List.mem_append, List.mem_singleton] at hcolumn
      rcases hcolumn with hcolumn | rfl
      · exact hcolumns column hcolumn
      · exact hknown

/-- The checks behind the last column do not panic. -/
theorem finish_ne_panic (opts : HeaderOptions) (source : HeaderSource) (relationship : Bool)
    (st : Columns) : st.finish opts source relationship ≠ .error .panic := by
  rw [Columns.finish]
  split
  · exact invalid_ne_panic _
  · split
    · split
      · exact invalid_ne_panic _
      · split
        · exact invalid_ne_panic _
        · exact nofun
    · exact nofun

end

/-! ## Values -/

/-- The text of a point with an option map that comes to a lone quote. -/
def PointQuoted (text : String) : Prop :=
  ∃ inner, pointInner text = some inner ∧ LoneQuoted (inner.splitOn ',')

/-- What `scalar` returns for the name of a type, where an array of the type is taken apart. -/
def Scalar.Fits {F T : Type} (value : Scalar F T) (name : String) : Prop :=
  match name with
  | "string" | "char" => ∃ text, value = .string text
  | "boolean" => ∃ b, value = .bool b
  | "byte" | "short" | "int" | "long" => ∃ n, value = .integer n
  | "float" | "double" => ∃ x, value = .float x
  | _ => True

section
variable {F T : Type} {p : Parsers F T} {opts : HeaderOptions} {type : ValueType} {text : String}
  {cell : Cell}

/-- An integer type has a range, so checking it does not panic. -/
theorem checkedInteger_ne_panic (hrange : type.integerRange.isSome = true) (normalized : Bool) :
    type.checkedInteger text normalized ≠ .error .panic := by
  rw [ValueType.checkedInteger, if_neg]
  · exact external_ne_panic _
  · rintro ⟨-, hnone⟩
    rw [Option.isNone_iff_eq_none] at hnone
    rw [hnone] at hrange
    cases hrange

theorem zonedTime_ne_panic (p : Parsers F T) (text zone : String) :
    zonedTime p text zone ≠ .error .panic := by
  rw [zonedTime]
  have hrest : ∀ (time : List Char) (explicit : Option (List Char)),
      (if hasTimeOffset time then external (p.zonedTime (.ofList time))
        else if isOffset (explicit.getD zone.toList) then
          external (p.zonedTime (.ofList (time ++ explicit.getD zone.toList)))
        else namedZoneTime p (.ofList time) (.ofList (explicit.getD zone.toList))) ≠
          .error .panic := by
    intro time explicit
    split
    · exact external_ne_panic _
    · split
      · exact external_ne_panic _
      · refine Results.bind_ne_error (external_ne_panic _) fun ⟨_, _⟩ _ => ?_
        refine Results.bind_ne_error (external_ne_panic _) fun _ _ => ?_
        refine Results.bind_ne_error (external_ne_panic _) fun _ _ => ?_
        refine Results.bind_ne_error (external_ne_panic _) fun _ _ => ?_
        refine Results.bind_ne_error (external_ne_panic _) fun _ _ => ?_
        exact Results.bind_ne_error (external_ne_panic _) fun _ _ => nofun
  cases splitOnce '[' text.toList with
  | none => exact hrest _ _
  | some split =>
      obtain ⟨time, zone'⟩ := split
      dsimp only
      cases stripSuffix ']' zone' with
      | none => exact invalid_ne_panic _
      | some explicit => exact hrest _ _

theorem coordinate_ne_panic (values : List (String × String)) (a b : String) :
    coordinate p values a b ≠ .error .panic := by
  rw [coordinate]
  split
  · exact invalid_ne_panic _
  · split
    · exact nofun
    · exact invalid_ne_panic _

theorem thirdCoordinate_ne_panic (values : List (String × String)) :
    thirdCoordinate p values ≠ .error .panic := by
  rw [thirdCoordinate]
  split
  · exact nofun
  · split
    · exact nofun
    · exact invalid_ne_panic _

theorem pointSrid_ne_panic (values : List (String × String)) (geographic third : Bool) :
    pointSrid values geographic third ≠ .error .panic := by
  unfold pointSrid
  split
  · split
    · exact nofun
    · exact invalid_ne_panic _
  · split
    · split
      · exact nofun
      · exact nofun
      · exact nofun
      · exact nofun
      · exact invalid_ne_panic _
    · exact nofun

/-- A point panics exactly at a lone quote in its map. -/
theorem point_panic_iff {defaults : List (String × String)} :
    point p text defaults = .error .panic ↔ PointQuoted text := by
  rw [point, PointQuoted]
  cases pointInner text with
  | none => exact ⟨fun h => absurd h (invalid_ne_panic _), nofun⟩
  | some inner =>
      dsimp only
      rw [bind_eq_error_iff, map_panic_iff]
      constructor
      · rintro (h | ⟨entries, -, h⟩)
        · exact ⟨inner, rfl, h⟩
        · exfalso
          refine Results.bind_ne_error (coordinate_ne_panic _ _ _) (fun x _ => ?_) h
          refine Results.bind_ne_error (coordinate_ne_panic _ _ _) fun y _ => ?_
          refine Results.bind_ne_error (thirdCoordinate_ne_panic _) fun z _ => ?_
          refine Results.bind_ne_error (pointSrid_ne_panic _ _ _) fun srid _ => ?_
          repeat' split
          all_goals first | exact invalid_ne_panic _ | exact nofun
      · rintro ⟨_, ⟨⟩, h⟩
        exact .inl h

/-- Every integer type has a range. -/
theorem integerRange_isSome (htype : type.Known)
    (hname : type.name = "byte" ∨ type.name = "short" ∨ type.name = "int" ∨ type.name = "long") :
    type.integerRange.isSome = true := by
  rw [htype.range]
  rcases hname with hname | hname | hname | hname <;> rw [hname] <;> rfl

/-- A value of a type's text; it panics for points only. -/
theorem scalar_panic_iff (htype : type.Known) {normalized : Bool} :
    type.scalar p text normalized = .error .panic ↔ type.name = "point" ∧ PointQuoted text := by
  have hother : ∀ {name : String} {x : Except (Failure String) (Scalar F T)}, type.name = name →
      name ≠ "point" → x ≠ .error .panic →
      (x = .error .panic ↔ type.name = "point" ∧ PointQuoted text) :=
    fun hname hne hx => ⟨fun h => absurd h hx, fun h => absurd (hname.symm.trans h.1) hne⟩
  have hinteger : type.name = "byte" ∨ type.name = "short" ∨ type.name = "int" ∨
      type.name = "long" → (type.checkedInteger text normalized).map Scalar.integer ≠
        (.error .panic : Except (Failure String) (Scalar F T)) :=
    fun hname => Results.map_ne_error (checkedInteger_ne_panic (integerRange_isSome htype hname) _)
  rw [ValueType.scalar]
  dsimp only
  split
  · next hname => exact hother hname (by decide) (by rintro ⟨⟩)
  · next hname =>
      refine hother hname (by decide) ?_
      split
      · rintro ⟨⟩
      · exact invalid_ne_panic _
  · next hname => exact hother hname (by decide) (by rintro ⟨⟩)
  · next hname => exact hother hname (by decide) (hinteger (by rw [hname]; decide))
  · next hname => exact hother hname (by decide) (hinteger (by rw [hname]; decide))
  · next hname => exact hother hname (by decide) (hinteger (by rw [hname]; decide))
  · next hname => exact hother hname (by decide) (hinteger (by rw [hname]; decide))
  · next hname =>
      refine hother hname (by decide) ?_
      split
      · rintro ⟨⟩
      · exact invalid_ne_panic _
  · next hname =>
      refine hother hname (by decide) ?_
      split
      · rintro ⟨⟩
      · exact invalid_ne_panic _
  · next hname => exact hother hname (by decide) (external_ne_panic _)
  · next hname => exact hother hname (by decide) (external_ne_panic _)
  · next hname => exact hother hname (by decide) (external_ne_panic _)
  · next hname => exact hother hname (by decide) (Results.map_ne_error (zonedTime_ne_panic _ _ _))
  · next hname => exact hother hname (by decide) (external_ne_panic _)
  · next hname => exact hother hname (by decide) (external_ne_panic _)
  · next hname =>
      rw [map_eq_error_iff, point_panic_iff]
      exact ⟨fun h => ⟨hname, h⟩, And.right⟩
  · next hnone =>
      have hname := htype.name
      rw [typeNames] at hname
      simp only [List.mem_cons, List.not_mem_nil, or_false] at hname
      simp_all only [or_self, imp_false]

/-- A value is of the kind that its type's name tells. -/
theorem scalar_fits {normalized : Bool} {value : Scalar F T}
    (h : type.scalar p text normalized = .ok value) : value.Fits type.name := by
  have hinteger : (type.checkedInteger text normalized).map Scalar.integer = .ok value →
      ∃ n, value = .integer n := by
    intro hx
    obtain ⟨n, -, rfl⟩ := map_eq_ok_iff.mp hx
    exact ⟨n, rfl⟩
  rw [ValueType.scalar] at h
  dsimp only at h
  split at h
  · next hname =>
      rw [hname]
      cases h
      exact ⟨_, rfl⟩
  · next hname =>
      rw [hname]
      split at h
      · cases h
        exact ⟨_, rfl⟩
      · cases h
  · next hname =>
      rw [hname]
      cases h
      exact ⟨_, rfl⟩
  · next hname =>
      rw [hname]
      exact hinteger h
  · next hname =>
      rw [hname]
      exact hinteger h
  · next hname =>
      rw [hname]
      exact hinteger h
  · next hname =>
      rw [hname]
      exact hinteger h
  · next hname =>
      rw [hname]
      split at h
      · cases h
        exact ⟨_, rfl⟩
      · cases h
  · next hname =>
      rw [hname]
      split at h
      · cases h
        exact ⟨_, rfl⟩
      · cases h
  · next hname => rw [hname]; trivial
  · next hname => rw [hname]; trivial
  · next hname => rw [hname]; trivial
  · next hname => rw [hname]; trivial
  · next hname => rw [hname]; trivial
  · next hname => rw [hname]; trivial
  · next hname => rw [hname]; trivial
  · cases h

/-- No element of an array is of another kind than its type. -/
theorem listOf_ne_panic {name : String} {elements : List (Scalar F T)}
    (h : ∀ element ∈ elements, element.Fits name) : listOf name elements ≠ .error .panic := by
  have hall : ∀ {α : Type} (f : Scalar F T → Except (Failure String) α)
      (g : List α → ListValue F T), (∀ element ∈ elements, ∃ a, f element = .ok a) →
      (elements.mapM f >>= fun values => .ok (g values)) ≠ .error .panic := by
    intro α f g hf
    refine Results.bind_ne_error (Results.mapM_ne_error fun element helement => ?_) fun _ _ => nofun
    obtain ⟨a, ha⟩ := hf element helement
    rw [ha]
    exact nofun
  unfold listOf
  split
  case h_10 => exact nofun
  all_goals
    refine hall _ _ fun element helement => ?_
    obtain ⟨_, rfl⟩ := h element helement
    exact ⟨_, rfl⟩

end

/-- A cell of points that comes to a lone quote: the cell is the text of a point, or those in front
of it are points. -/
def ValueType.Quoted {F T : Type} (p : Parsers F T) (opts : HeaderOptions) (type : ValueType)
    (cell : Cell) : Prop :=
  let text := cellText opts.importOptions cell
  type.name = "point" ∧
    if type.array then ∃ front part back, arrayParts opts type text = front ++ part :: back ∧
      (∀ point' ∈ front, ∃ value, point p point' type.options = .ok value) ∧ PointQuoted part
    else PointQuoted text

section
variable {F T : Type} {p : Parsers F T} {opts : HeaderOptions} {type : ValueType} {text : String}
  {cell : Cell}

/-- An empty cell has no lone quote. -/
theorem not_pointQuoted_empty : ¬PointQuoted "" := by
  rintro ⟨inner, hinner, -⟩
  cases hinner

/-- No cell without a text has a lone quote. -/
theorem quoted_text_ne (h : type.Quoted p opts cell) : cellText opts.importOptions cell ≠ "" := by
  intro hempty
  obtain ⟨hname, h⟩ := h
  rw [hempty] at h
  split at h
  · obtain ⟨front, part, back, hsplit, -, hquoted⟩ := h
    have hparts : arrayParts opts type "" = [""] := by
      rw [arrayParts, hname]
      simp
    rw [hparts] at hsplit
    cases front with
    | nil =>
        cases hsplit
        exact not_pointQuoted_empty hquoted
    | cons first front =>
        rw [List.cons_append, List.cons.injEq] at hsplit
        have hlength := congrArg List.length hsplit.2
        simp at hlength
  · exact not_pointQuoted_empty h

/-- The parts of an array of points. -/
theorem mapM_scalar_panic_iff (htype : type.Known) {parts : List String} :
    parts.mapM (fun part => type.scalar p part false) = .error .panic ↔
      type.name = "point" ∧ ∃ front part back, parts = front ++ part :: back ∧
        (∀ point' ∈ front, ∃ value, point p point' type.options = .ok value) ∧
        PointQuoted part := by
  rw [Results.mapM_eq_error_iff]
  have hpoint : type.name = "point" → ∀ part,
      type.scalar p part false = (point p part type.options).map .point := by
    intro hname part
    rw [ValueType.scalar, hname]
    rfl
  constructor
  · rintro ⟨front, part, back, hsplit, hfront, hpanic⟩
    obtain ⟨hname, hquoted⟩ := (scalar_panic_iff htype).mp hpanic
    refine ⟨hname, front, part, back, hsplit, fun point' hmem => ?_, hquoted⟩
    obtain ⟨value, hvalue⟩ := hfront point' hmem
    rw [hpoint hname] at hvalue
    obtain ⟨value', hvalue', -⟩ := map_eq_ok_iff.mp hvalue
    exact ⟨value', hvalue'⟩
  · rintro ⟨hname, front, part, back, hsplit, hfront, hquoted⟩
    refine ⟨front, part, back, hsplit, fun point' hmem => ?_,
      (scalar_panic_iff htype).mpr ⟨hname, hquoted⟩⟩
    obtain ⟨value, hvalue⟩ := hfront point' hmem
    exact ⟨.point value, by rw [hpoint hname, hvalue]; rfl⟩

/-- The conversion of a cell panics exactly at a lone quote of a point. -/
theorem parseValue_panic_iff (htype : type.Known) :
    type.parseValue p opts cell = .error .panic ↔ type.Quoted p opts cell := by
  have hother : ∀ {x : Except (Failure String) ParsedValue}, x ≠ .error .panic →
      (type.Quoted p opts cell → False) →
      (x = .error .panic ↔ type.Quoted p opts cell) :=
    fun hx hquoted => ⟨fun h => absurd h hx, fun h => (hquoted h).elim⟩
  rw [ValueType.parseValue]
  split
  · next hempty =>
      refine hother nofun fun hquoted => quoted_text_ne hquoted ?_
      rw [Bool.and_eq_true, String.isEmpty_iff] at hempty
      exact hempty.1
  split
  · next hstring =>
      refine hother nofun fun hquoted => ?_
      rw [hquoted.1] at hstring
      simp at hstring
  split
  · next hinteger =>
      rw [Bool.and_eq_true] at hinteger
      refine hother (Results.map_ne_error (checkedInteger_ne_panic hinteger.2 _)) fun hquoted => ?_
      rw [htype.range, hquoted.1] at hinteger
      cases hinteger.2
  split
  · next hchar =>
      refine hother ?_ fun hquoted => ?_
      · split
        · exact invalid_ne_panic _
        · exact nofun
      · rw [hquoted.1] at hchar
        simp at hchar
  split
  · next harray =>
      rw [bind_eq_error_iff, mapM_scalar_panic_iff htype, ValueType.Quoted, if_pos harray]
      refine or_iff_left ?_
      rintro ⟨elements, helements, hrest⟩
      refine Results.bind_ne_error (listOf_ne_panic fun element hmem => ?_)
        (fun _ _ => external_ne_panic _) hrest
      have hfits := Results.forall₂_forall (Results.mapM_eq_ok_iff.mp helements)
        (fun part _ value hvalue => scalar_fits hvalue)
      exact hfits element hmem
  · next harray =>
      rw [bind_eq_error_iff, scalar_panic_iff htype, ValueType.Quoted, if_neg harray]
      exact or_iff_left fun ⟨_, _, hrest⟩ => external_ne_panic _ hrest

/-- Ids do not panic. -/
theorem parseId_ne_panic (htype : type.OfIds) : type.parseId opts cell ≠ .error .panic := by
  rw [ValueType.parseId]
  split
  · exact nofun
  split
  · exact nofun
  · next hstring =>
      have hname := htype.name
      rw [List.mem_cons, or_iff_right fun heq => hstring (beq_iff_eq.mpr heq)] at hname
      have hsome : type.integerRange.isSome = true := by
        rw [htype.range]
        simp only [List.mem_cons, List.not_mem_nil, or_false] at hname
        rcases hname with hname | hname | hname | hname <;> rw [hname] <;> rfl
      split
      · exact nofun
      · exact invalid_ne_panic _
      · next hpanic => exact absurd hpanic (checkedInteger_ne_panic hsome false)

/-- Labels do not panic. -/
theorem parseLabels_ne_panic : parseLabels p opts cell ≠ .error .panic := by
  rw [parseLabels]
  split
  · exact nofun
  · exact external_ne_panic _

/-- A cell panics where its column is a property whose text has a lone quote. -/
theorem parseCell_panic_iff {column : Column} (h : KindKnown column.kind) :
    column.parseCell p opts cell = .error .panic ↔
      ∃ type, column.kind = .property type ∧ type.Quoted p opts cell := by
  obtain ⟨kind, name⟩ := column
  rw [Column.parseCell]
  dsimp only at h ⊢
  cases kind with
  | ignore => exact ⟨nofun, nofun⟩
  | property type =>
      dsimp only
      rw [parseValue_panic_iff h]
      constructor
      · exact fun hquoted => ⟨type, rfl, hquoted⟩
      · rintro ⟨_, ⟨⟩, hquoted⟩
        exact hquoted
  | id type => exact ⟨fun hpanic => absurd hpanic (parseId_ne_panic h), nofun⟩
  | start type => exact ⟨fun hpanic => absurd hpanic (parseId_ne_panic h), nofun⟩
  | stop type => exact ⟨fun hpanic => absurd hpanic (parseId_ne_panic h), nofun⟩
  | label => exact ⟨fun hpanic => absurd hpanic parseLabels_ne_panic, nofun⟩
  | type => exact ⟨nofun, nofun⟩

end

/-! ## Imports -/

/-- The groups that the headers of an import have declared. -/
inductive Declared (opts : HeaderOptions) : Map String ValueType → Prop
  | empty : Declared opts .empty
  | parse {groups groups' : Map String ValueType} {source : HeaderSource} {relationship : Bool}
      {cells : List Cell} {header : ParsedHeader} :
      Declared opts groups →
      ParsedHeader.parse opts source relationship cells groups = .ok (header, groups') →
      Declared opts groups'

section
variable {opts : HeaderOptions} {groups groups' : Map String ValueType} {source : HeaderSource}
  {relationship : Bool} {cells : List Cell} {header : ParsedHeader}

/-- The header has the columns of the cells, and the groups are theirs. -/
theorem finish_ok {st : Columns} (h : st.finish opts source relationship = .ok (header, groups')) :
    header.columns = st.columns ∧ groups' = st.groups := by
  rw [Columns.finish] at h
  split at h
  · cases h
  · split at h
    · split at h
      · cases h
      · split at h
        · cases h
        · cases h
          exact ⟨rfl, rfl⟩
    · cases h
      exact ⟨rfl, rfl⟩

/-- A header that is accepted has columns of parsed types. -/
theorem parse_known (hgroups : OfIds groups)
    (h : ParsedHeader.parse opts source relationship cells groups = .ok (header, groups')) :
    OfIds groups' ∧ ∀ column ∈ header.columns, KindKnown column.kind := by
  rw [ParsedHeader.parse] at h
  split at h
  · cases h
  · obtain ⟨st, hcolumns, hfinish⟩ := bind_eq_ok_iff.mp h
    have hstart : OfIds (Columns.start groups).groups := hgroups
    obtain ⟨hgroups', hknown⟩ := columnsFrom_known hstart (fun _ hmem => nomatch hmem) hcolumns
    obtain ⟨hsame, rfl⟩ := finish_ok hfinish
    rw [hsame]
    exact ⟨hgroups', hknown⟩

/-- The groups that are declared have types of ids. -/
theorem declared_ofIds (h : Declared opts groups) : OfIds groups := by
  induction h with
  | empty => exact fun _ _ hfind => nomatch hfind
  | parse _ hparse ih => exact (parse_known ih hparse).1

end

/-- Parsing the headers of an import, and the cells of its columns, panics exactly at a lone quote:
in the option map of a header cell or in the text of a point, when the code comes to it. -/
theorem parsing_panics_iff {F T : Type} (p : Parsers F T) {opts : HeaderOptions}
    {groups : Map String ValueType} (h : Declared opts groups) (source : HeaderSource)
    (relationship : Bool) (cells : List Cell) :
    (ParsedHeader.parse opts source relationship cells groups = .error .panic ↔
      ∃ front cell back, cells = front ++ cell :: back ∧
        (∃ st, columnsFrom opts relationship 0 front (.start groups) = .ok st) ∧
        HeaderQuoted cell) ∧
    ∀ header groups', ParsedHeader.parse opts source relationship cells groups =
        .ok (header, groups') →
      ∀ column ∈ header.columns, ∀ cell, column.parseCell p opts cell = .error .panic ↔
        ∃ type, column.kind = .property type ∧ type.Quoted p opts cell := by
  refine ⟨?_, fun header groups' hparse column hcolumn cell => ?_⟩
  · rw [ParsedHeader.parse]
    split
    · next hempty =>
        rw [List.isEmpty_iff] at hempty
        refine ⟨fun hpanic => absurd hpanic (invalid_ne_panic _), ?_⟩
        rintro ⟨front, cell, back, hsplit, -⟩
        rw [hempty] at hsplit
        cases front <;> cases hsplit
    · rw [bind_eq_error_iff, columnsFrom_panic_iff]
      exact or_iff_left fun ⟨st, _, hfinish⟩ => finish_ne_panic _ _ _ _ hfinish
  · exact parseCell_panic_iff ((parse_known (declared_ofIds h) hparse).2 column hcolumn)

/-- Floats that are integers and times that are texts. -/
def plainParsers : Parsers Int String where
  f64 text := (parseI64 text).map Int64.toInt
  f32 text := (parseI64 text).map Int64.toInt
  isFinite _ := true
  isLatitude y := -90 ≤ y ∧ y ≤ 90
  date := .ok
  localTime := .ok
  zonedTime := .ok
  localDateTime := .ok
  zonedDateTime := .ok
  duration := .ok
  now := .ok (0, 0)
  fromEpoch _ _ := .ok ""
  withNamedZoneSameInstant time _ := .ok time
  dateOf := id
  fromDateAndTime date time := .ok (date ++ "T" ++ time)
  inNamedZone time zone := .ok (time ++ zone)
  withOffsetOf time _ := time
  encode _ := .ok .null

/-- A header cell that panics, behind one that does not, and a cell of points that does. -/
theorem parsing_panics_iff_point :
    ParsedHeader.parse plainHeaderOptions ⟨[], none⟩ false
      [⟨"name", false⟩, ⟨"at:point\x7bcrs:'\x7d", false⟩] .empty = .error .panic ∧
    ∃ header groups, ParsedHeader.parse plainHeaderOptions ⟨[], none⟩ false
        [⟨"at:point[]", false⟩] .empty = .ok (header, groups) ∧
      ∀ column ∈ header.columns,
        column.parseCell plainParsers plainHeaderOptions
          ⟨"\x7bx: 1, y: 2\x7d;\x7bx: '\x7d", false⟩ =
          .error .panic := by
  refine ⟨?_, ?_⟩
  · refine (parsing_panics_iff plainParsers .empty ⟨[], none⟩ false _).1.mpr
      ⟨[⟨"name", false⟩], ⟨"at:point\x7bcrs:'\x7d", false⟩, [], rfl, ⟨_, rfl⟩, _, rfl, ?_⟩
    exact ⟨[], _, _, _, rfl, fun _ hentry => (nomatch hentry), .nil, .inl rfl⟩
  · have hparse : ∃ header groups, ParsedHeader.parse plainHeaderOptions ⟨[], none⟩ false
        [⟨"at:point[]", false⟩] .empty = .ok (header, groups) ∧
        header.columns = [⟨.property ⟨"point", true, [], none⟩, "at"⟩] := ⟨_, _, rfl, rfl⟩
    obtain ⟨header, groups, hparse, hcolumns⟩ := hparse
    refine ⟨header, groups, hparse, fun column hcolumn => ?_⟩
    refine ((parsing_panics_iff plainParsers .empty ⟨[], none⟩ false [⟨"at:point[]", false⟩]).2
      header groups hparse column hcolumn _).mpr ?_
    rw [hcolumns, List.mem_singleton] at hcolumn
    subst hcolumn
    refine ⟨_, rfl, rfl, ["\x7bx: 1, y: 2\x7d"], "\x7bx: '\x7d", [], rfl,
      fun point' hmem => ?_, _, rfl, ?_⟩
    · obtain rfl := List.mem_singleton.mp hmem
      exact ⟨_, rfl⟩
    · exact ⟨[], _, _, _, rfl, fun _ hentry => (nomatch hentry), .nil, .inl rfl⟩

end Velr.Import
