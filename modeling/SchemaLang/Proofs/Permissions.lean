import Mathlib.Data.List.DropRight
import Mathlib.Data.Set.Function
import SchemaLang.Proofs.Lexemes
import SchemaLang.Proofs.RoundTrip

/-!
# Lists of permissions

The permissions of an attribute are the entries of its argument, which is a list with commas.

* Trimming a text leaves the part between the white space at its ends (`Text.trim_eq_iff`).
* `Text.IsCut` says that pieces without a separator make up a text. A text has one such list of pieces
  (`Text.isCut_iff`).
* `Attribute.Lists` says which entries some pieces list: a piece is blank, or it is an entry with white space around it.
  The permissions are the entries of the pieces between commas (`Attribute.permissionsOf_eq_iff`).
* The payload of the attribute has the permissions in quotes. As there are no commas in them, it is cut into them again
  (`Attribute.pieces_value`), so that no two lists have the same payload (`Attribute.injOn_value`).
* Main result: `Attribute.authorize_normalized`.
-/

namespace SchemaLang

namespace Text

variable {s t front back : List Char}

/-! ## White space at the ends -/

/-- A text of white space. -/
def AllBlank (s : List Char) : Prop := ∀ c ∈ s, isBlank c = true

theorem trim_eq_rdropWhile (s : List Char) : trim s = (trimStart s).rdropWhile isBlank := rfl

theorem trim_append_left (hf : AllBlank front) (s : List Char) : trim (front ++ s) = trim s := by
  have hstart : trimStart (front ++ s) = trimStart s := List.dropWhile_append_of_pos hf
  rw [trim, hstart, trim]

theorem trim_append_right (hb : AllBlank back) (s : List Char) : trim (s ++ back) = trim s := by
  have hstart : trimStart (s ++ back) = if (trimStart s).isEmpty then [] else trimStart s ++ back := by
    have hnil : back.dropWhile isBlank = [] := List.dropWhile_eq_nil_iff.2 hb
    rw [trimStart, List.dropWhile_append, hnil]
    rfl
  rw [trim_eq_rdropWhile, trim_eq_rdropWhile, hstart]
  split
  · rename_i h
    rw [List.isEmpty_iff.1 h]
  · rw [List.rdropWhile, List.reverse_append, List.dropWhile_append_of_pos fun c hc => hb c (List.mem_reverse.1 hc)]
    rfl

/-- Trimming takes the white space at the ends away, all of it and nothing else. -/
theorem trim_eq_iff :
    trim s = t ↔ Trimmed t ∧ ∃ front back, AllBlank front ∧ AllBlank back ∧ s = front ++ t ++ back := by
  constructor
  · rintro rfl
    refine ⟨trimmed_trim s, s.takeWhile isBlank, (trimStart s).rtakeWhile isBlank, fun c => List.mem_takeWhile_imp,
      fun c => List.mem_rtakeWhile_imp, ?_⟩
    rw [List.append_assoc, trim_eq_rdropWhile, List.rdropWhile_append_rtakeWhile, trimStart,
      List.takeWhile_append_dropWhile]
  · rintro ⟨ht, front, back, hf, hb, rfl⟩
    rw [trim_append_right hb, trim_append_left hf, trim_eq_self ht]

/-! ## Pieces between separators -/

/-- The pieces of a text between the occurrences of a separator, in order. -/
structure IsCut (sep : Char) (s : List Char) (ps : List (List Char)) : Prop where
  ne_nil : ps ≠ []
  not_mem : ∀ p ∈ ps, sep ∉ p
  join_eq : join [sep] ps = s

theorem isCut_iff {sep : Char} {ps : List (List Char)} : IsCut sep s ps ↔ ps = pieces sep s := by
  constructor
  · rintro ⟨hne, hsep, rfl⟩
    exact (pieces_join hsep hne).symm
  · rintro rfl
    exact ⟨pieces_ne_nil sep s, fun p hp => not_mem_of_mem_pieces hp, join_pieces sep s⟩

/-- A text behind each separator is a text in front of each piece but the first. -/
theorem join_cons_cons (sep : Char) (gap p : List Char) (ps : List (List Char)) :
    join (sep :: gap) (p :: ps) = join [sep] (p :: ps.map (gap ++ ·)) := by
  induction ps generalizing p with
  | nil => rfl
  | cons q ps ih =>
    rw [join, ih, List.map_cons, join]
    cases ps <;> simp [join]

end Text

namespace Attribute

open Text (AllBlank Trimmed IsCut)

variable {ps : List (List Char)} {entries : List String}

/-! ## Entries -/

/-- The entries that pieces list, in order. A blank piece lists none. -/
inductive Lists : List (List Char) → List String → Prop
  | nil : Lists [] []
  | blank {piece : List Char} {ps : List (List Char)} {entries : List String} (gap : AllBlank piece)
      (rest : Lists ps entries) : Lists (piece :: ps) entries
  | entry {front back : List Char} {entry : String} {ps : List (List Char)} {entries : List String}
      (gap_front : AllBlank front) (gap_back : AllBlank back) (ne_empty : entry ≠ "") (trimmed : Trimmed entry.toList)
      (rest : Lists ps entries) : Lists ((front ++ entry.toList ++ back) :: ps) (entry :: entries)

/-- The entries of pieces are what is left of the pieces that are not blank. -/
theorem lists_iff : Lists ps entries ↔ ((ps.map Text.trim).filter (· ≠ [])).map String.ofList = entries := by
  constructor
  · intro h
    induction h with
    | nil => rfl
    | blank gap _ ih => simpa [Text.trim_of_all_blank gap] using ih
    | @entry front back entry ps entries hf hb hne ht _ ih =>
      have htrim := Text.trim_eq_iff.2 ⟨ht, front, back, hf, hb, rfl⟩
      have hne : entry.toList ≠ [] := by simpa using hne
      rw [List.map_cons, htrim, List.filter_cons_of_pos (by simpa using hne), List.map_cons, ih, String.ofList_toList]
  · rintro rfl
    induction ps with
    | nil => exact .nil
    | cons p ps ih =>
      obtain ⟨ht, front, back, hf, hb, hp⟩ := Text.trim_eq_iff.1 (rfl : Text.trim p = Text.trim p)
      by_cases hempty : Text.trim p = []
      · have hgap : AllBlank p := by
          rw [hp, hempty, List.append_nil]
          exact List.forall_mem_append.2 ⟨hf, hb⟩
        simpa [hempty] using ih.blank hgap
      · have hentry : Lists _ (String.ofList (Text.trim p) :: _) :=
          .entry hf hb (by simpa using hempty) (by rwa [String.toList_ofList]) ih
        rw [String.toList_ofList, ← hp] at hentry
        simpa [hempty] using hentry

theorem comma_not_mem_of_allBlank {s : List Char} (h : AllBlank s) : ',' ∉ s := by
  intro hm
  have hblank := h ',' hm
  exact absurd hblank (by decide)

/-- There is a comma in a piece exactly if there is one in an entry. -/
theorem Lists.forall_comma_not_mem (h : Lists ps entries) :
    (∀ p ∈ ps, ',' ∉ p) ↔ ∀ entry ∈ entries, ',' ∉ entry.toList := by
  induction h with
  | nil => simp
  | blank gap _ ih => rw [List.forall_mem_cons, ih, and_iff_right (comma_not_mem_of_allBlank gap)]
  | entry hf hb _ _ _ ih =>
    rw [List.forall_mem_cons, List.forall_mem_cons, ih]
    simp [comma_not_mem_of_allBlank hf, comma_not_mem_of_allBlank hb]

theorem Lists.ne_and_trimmed (h : Lists ps entries) : ∀ entry ∈ entries, entry ≠ "" ∧ Trimmed entry.toList := by
  induction h with
  | nil => simp
  | blank _ _ ih => exact ih
  | entry _ _ hne ht _ ih => exact List.forall_mem_cons.2 ⟨⟨hne, ht⟩, ih⟩

/-! ## Permissions -/

/-- The permissions of an argument are the entries of its pieces between commas. -/
theorem permissionsOf_eq_iff {argument : String} :
    permissionsOf argument = entries ↔ ∃ ps, IsCut ',' argument.toList ps ∧ Lists ps entries := by
  simp only [Text.isCut_iff, exists_eq_left, lists_iff]
  rfl

/-- Entries may be written with any white space around them and any blank pieces between them. -/
theorem permissionsOf_join_of_lists (h : Lists ps entries) (hcomma : ∀ entry ∈ entries, ',' ∉ entry.toList) :
    permissionsOf (String.ofList (Text.join [','] ps)) = entries := by
  by_cases hne : ps = []
  · subst hne
    cases h
    decide
  · refine permissionsOf_eq_iff.2 ⟨ps, ⟨hne, h.forall_comma_not_mem.2 hcomma, ?_⟩, h⟩
    rw [String.toList_ofList]

/-- An entry in quotes. -/
def quoted (entry : String) : List Char := '"' :: (entry.toList ++ ['"'])

theorem quoted_injective : Function.Injective quoted := by
  intro p q h
  exact String.toList_injective (List.append_cancel_right (List.cons.inj h).2)

/-- The payload is cut at the commas into the quoted entries. -/
theorem pieces_value {entry : String} (h : ∀ e ∈ entry :: entries, ',' ∉ e.toList) :
    Text.pieces ',' (authorize (entry :: entries)).value.toList =
      quoted entry :: entries.map fun e => ' ' :: quoted e := by
  have hvalue : (authorize (entry :: entries)).value.toList =
      Text.join [','] (quoted entry :: entries.map fun e => ' ' :: quoted e) := by
    have hjoin := Text.join_cons_cons ',' [' '] (quoted entry) (entries.map quoted)
    rw [List.map_map] at hjoin
    rw [value, String.toList_ofList]
    exact hjoin
  obtain ⟨hentry, hentries⟩ := List.forall_mem_cons.1 h
  rw [hvalue]
  refine Text.pieces_join (List.forall_mem_cons.2 ⟨by simpa [quoted] using hentry, ?_⟩) (List.cons_ne_nil _ _)
  rw [List.forall_mem_map]
  intro e he
  simpa [quoted] using hentries e he

/-- Lists without commas in their entries have different payloads. -/
theorem injOn_value :
    Set.InjOn (fun entries => (authorize entries).value) {entries | ∀ entry ∈ entries, ',' ∉ entry.toList} := by
  intro ps hps qs hqs h
  have hpieces : Text.pieces ',' (authorize ps).value.toList = Text.pieces ',' (authorize qs).value.toList :=
    congrArg (fun v => Text.pieces ',' v.toList) h
  -- Without permissions there is one piece, which is empty; all other pieces have quotes.
  have hnil : Text.pieces ',' (authorize []).value.toList = [[]] := by decide
  cases ps with
  | nil =>
    cases qs with
    | nil => rfl
    | cons q qs =>
      rw [hnil, pieces_value hqs] at hpieces
      simp [quoted] at hpieces
  | cons p ps =>
    cases qs with
    | nil =>
      rw [hnil, pieces_value hps] at hpieces
      simp [quoted] at hpieces
    | cons q qs =>
      rw [pieces_value hps, pieces_value hqs] at hpieces
      obtain ⟨hp, hrest⟩ := List.cons.inj hpieces
      have hspaced : Function.Injective fun e => ' ' :: quoted e :=
        fun d e he => quoted_injective (List.cons.inj he).2
      rw [quoted_injective hp, List.map_injective_iff.2 hspaced hrest]

/-- With commas in the entries, two lists can have one payload. -/
example : (authorize ["a\", \"b"]).value = (authorize ["a", "b"]).value := by decide

/-- The permissions of an argument are its pieces between commas, without the white space at their ends and without
those that are empty then. So no permission is empty, has a comma in it or white space at an end. Written again with
commas, any white space and any blank pieces between them, they are the same permissions, and other permissions are
another payload. -/
theorem authorize_normalized (argument : String) (isNumber : Bool) :
    ∃ entries, ofKeyword? "authorizeWhenHasAnyOf" argument isNumber = some (authorize entries) ∧
      (∃ ps, (∀ qs, IsCut ',' argument.toList qs ↔ qs = ps) ∧ Lists ps entries) ∧
      (∀ entry ∈ entries, entry ≠ "" ∧ ',' ∉ entry.toList ∧ Trimmed entry.toList) ∧
      (∀ ps again, Lists ps entries →
        ofKeyword? "authorizeWhenHasAnyOf" (String.ofList (Text.join [','] ps)) again = some (authorize entries)) ∧
      ∀ other again others, ofKeyword? "authorizeWhenHasAnyOf" other again = some (authorize others) →
        (authorize others).value = (authorize entries).value → others = entries := by
  have hbuilt (v : String) (n : Bool) : ofKeyword? "authorizeWhenHasAnyOf" v n = some (authorize (permissionsOf v)) :=
    rfl
  have hcomma (v : String) : ∀ entry ∈ permissionsOf v, ',' ∉ entry.toList := by
    obtain ⟨ps, hcut, hlists⟩ := permissionsOf_eq_iff.1 (rfl : permissionsOf v = permissionsOf v)
    exact hlists.forall_comma_not_mem.1 hcut.not_mem
  obtain ⟨ps, hcut, hlists⟩ := permissionsOf_eq_iff.1 (rfl : permissionsOf argument = permissionsOf argument)
  refine ⟨permissionsOf argument, hbuilt argument isNumber, ⟨ps, fun qs => ?_, hlists⟩, fun entry he => ?_,
    fun qs again hqs => ?_, fun other again others ho hvalue => ?_⟩
  · rw [Text.isCut_iff, Text.isCut_iff.1 hcut]
  · obtain ⟨hne, htrimmed⟩ := hlists.ne_and_trimmed entry he
    exact ⟨hne, hcomma argument entry he, htrimmed⟩
  · rw [hbuilt, permissionsOf_join_of_lists hqs (hcomma argument)]
  · obtain rfl : permissionsOf other = others := by simpa [hbuilt] using ho
    exact injOn_value (hcomma other) (hcomma argument) hvalue

/-- Two entries, of which one has a blank and a quotation mark in it, in two arguments with different white space. -/
theorem authorize_normalized_quotes :
    ∃ ps, Lists ps ["admin", "us\" er"] ∧ Text.join [','] ps = " admin, ,\u00a0us\" er\u2003,".toList ∧
      ofKeyword? "authorizeWhenHasAnyOf" "admin,us\" er" false = some (authorize ["admin", "us\" er"]) ∧
      ofKeyword? "authorizeWhenHasAnyOf" " admin, ,\u00a0us\" er\u2003," true = some (authorize ["admin", "us\" er"]) ∧
      ∀ others, ofKeyword? "authorizeWhenHasAnyOf" ",\tadmin\n,us\" er" false = some (authorize others) →
        others = ["admin", "us\" er"] := by
  obtain ⟨entries, hbuilt, -, -, hagain, hfaithful⟩ := authorize_normalized "admin,us\" er" false
  have hentries : ofKeyword? "authorizeWhenHasAnyOf" "admin,us\" er" false = some (authorize ["admin", "us\" er"]) := by
    decide +kernel
  obtain rfl : ["admin", "us\" er"] = entries := by simpa [hentries] using hbuilt
  have hlists : Lists [" admin".toList, " ".toList, "\u00a0us\" er\u2003".toList, []] ["admin", "us\" er"] :=
    lists_iff.2 (by decide +kernel)
  have hjoin : Text.join [','] [" admin".toList, " ".toList, "\u00a0us\" er\u2003".toList, []] =
      " admin, ,\u00a0us\" er\u2003,".toList := by decide +kernel
  refine ⟨_, hlists, hjoin, hentries, ?_, fun others hothers => hfaithful _ false others hothers ?_⟩
  · have hrebuilt := hagain _ true hlists
    rwa [hjoin, String.ofList_toList] at hrebuilt
  · have hsame : ofKeyword? "authorizeWhenHasAnyOf" ",\tadmin\n,us\" er" false =
        some (authorize ["admin", "us\" er"]) := by decide +kernel
    obtain rfl : ["admin", "us\" er"] = others := by simpa [hsame] using hothers
    rfl

end Attribute

end SchemaLang
