import Mathlib.Order.Basic
import Mathlib.Tactic.Choose
import ExactLinear.Proofs.JsonTokens

/-!
# JSON values are read back from their texts

A JSON value with exact numbers and sorted members is written and read back without loss, in every
layout. The text has the tokens that the printer put there (`Scans`), the reader builds one document
of them whatever stands around it (`Builds`), and the document has the value
(`Exact.exists_document`). The main result is `read?_text`; its hypothesis `Exact` excludes nothing
but floating-point numbers, integers of more than 64 bits, members out of order and values that are
nested too deeply for the reader. The members of a value that is read are always in order, whatever
the text is (`sorted_of_read?`).
-/

namespace ExactLinear.Json

open Json.Tree

/-! ## Documents from tokens -/

/-- Where a value is expected, the tokens complete it. -/
def Builds (tokens : List Token) (t : Tree) : Prop :=
  ∀ frames, tokens.foldlM step ⟨frames, .value⟩ = some ⟨frames, .completed t⟩

/-- Parts with commas between them, up to the closing token: `before` and `after` are the states
around a part that has the value `value a`, where those of the parts before it are collected. -/
theorem foldlM_separated {α β : Type} (before : List β → State) (after : β → List β → State)
    (closed : List β → State) (tokens : α → List Token) (value : α → β) (close : Token)
    {items : List α}
    (hitems : ∀ a ∈ items, ∀ acc, (tokens a).foldlM step (before acc) = some (after (value a) acc))
    (hcomma : ∀ b acc, step (after b acc) .comma = some (before (b :: acc)))
    (hclose : ∀ b acc, step (after b acc) close = some (closed (b :: acc).reverse))
    (hne : items ≠ []) (acc : List β) :
    ([.comma].intercalate (items.map tokens) ++ [close]).foldlM step (before acc) =
      some (closed (acc.reverse ++ items.map value)) := by
  induction items generalizing acc with
  | nil => exact absurd rfl hne
  | cons a items ih =>
    obtain ⟨ha, hitems⟩ := List.forall_mem_cons.mp hitems
    cases items with
    | nil =>
      rw [List.map_singleton, List.intercalate_singleton, List.foldlM_append, ha]
      show (step (after (value a) acc) close).bind some = _
      rw [hclose, List.reverse_cons]
      rfl
    | cons b items =>
      rw [List.map_cons, List.map_cons, List.intercalate_cons_cons, List.append_assoc,
        List.append_assoc, List.foldlM_append, ha]
      show (step (after (value a) acc) .comma).bind _ = _
      rw [hcomma]
      show ([.comma].intercalate ((b :: items).map tokens) ++ [close]).foldlM step
        (before (value a :: acc)) = _
      rw [ih hitems (List.cons_ne_nil b items), List.reverse_cons, List.append_assoc]
      rfl

/-- A value does not start with a closing bracket. -/
theorem Builds.exists_eq_cons {tokens : List Token} {t : Tree} (h : Builds tokens t) :
    ∃ token rest, tokens = token :: rest ∧ token ≠ .closeBracket := by
  cases tokens with
  | nil => cases h []
  | cons token rest =>
    refine ⟨token, rest, rfl, ?_⟩
    rintro rfl
    cases h []

variable {tokens : Json → List Token} {tree : Json → Tree} {items : List Json}
  {members : List (String × Json)}

theorem exists_intercalate_eq_append (separator part : List Token) (parts : List (List Token)) :
    ∃ rest, separator.intercalate (part :: parts) = part ++ rest := by
  cases parts with
  | nil => exact ⟨[], by rw [List.intercalate_singleton, List.append_nil]⟩
  | cons next parts => exact ⟨_, by rw [List.intercalate_cons_cons, List.append_assoc]⟩

theorem Builds.array (h : ∀ j ∈ items, Builds (tokens j) (tree j)) :
    Builds (.openBracket :: ([.comma].intercalate (items.map tokens) ++ [.closeBracket]))
      (.array (items.map tree)) := by
  intro frames
  cases items with
  | nil => rfl
  | cons j items =>
    have hitems := foldlM_separated (fun trees => ⟨.array trees :: frames, .value⟩)
      (fun t trees => ⟨.array trees :: frames, .completed t⟩)
      (fun trees => ⟨frames, .completed (.array trees)⟩) tokens tree .closeBracket
      (fun j hj _ => h j hj _) (fun _ _ => rfl) (fun _ _ => rfl) (List.cons_ne_nil j items) []
    -- the first item is read as any other, unless it is a closing bracket
    obtain ⟨token, more, hcons, hclose⟩ := (h j List.mem_cons_self).exists_eq_cons
    obtain ⟨rest, hrest⟩ := exists_intercalate_eq_append [.comma] (tokens j) (items.map tokens)
    rw [List.map_cons, hrest, hcons] at hitems ⊢
    refine Eq.trans ?_ hitems
    cases token <;> first | rfl | exact absurd rfl hclose

theorem Builds.object (key : String → List Piece) {tokens : String × Json → List Token}
    {tree : String × Json → Tree} (h : ∀ m ∈ members, Builds (tokens m) (tree m)) :
    Builds (.openBrace :: ([.comma].intercalate
        (members.map fun m => .string (key m.1) :: .colon :: tokens m) ++ [.closeBrace]))
      (.object (members.map fun m => (key m.1, tree m))) := by
  intro frames
  cases members with
  | nil => rfl
  | cons m members =>
    have hmembers := foldlM_separated (fun trees => ⟨frames, .key trees⟩)
      (fun t trees => ⟨.object trees t.1 :: frames, .completed t.2⟩)
      (fun trees => ⟨frames, .completed (.object trees)⟩)
      (fun m => .string (key m.1) :: .colon :: tokens m) (fun m => (key m.1, tree m)) .closeBrace
      (fun m hm _ => h m hm _) (fun _ _ => rfl) (fun _ _ => rfl) (List.cons_ne_nil m members) []
    -- the first name is read as any other
    obtain ⟨rest, hrest⟩ := exists_intercalate_eq_append [.comma]
      (.string (key m.1) :: .colon :: tokens m)
      (members.map fun m => .string (key m.1) :: .colon :: tokens m)
    rw [List.map_cons, hrest] at hmembers ⊢
    exact hmembers

/-! ## Texts of containers -/

theorem isSpace_of_mem_lineBreak (layout : Layout) :
    ∀ c ∈ layout.lineBreak.toList, isSpace c = true := by
  cases layout with
  | compact => simp [Layout.lineBreak]
  | lines depth =>
    intro c hc
    rw [Layout.lineBreak, String.toList_append, List.mem_append] at hc
    obtain hc | hc := hc
    · obtain rfl : c = '\n' := by simpa using hc
      rfl
    · rw [String.toList_ofList] at hc
      rw [List.eq_of_mem_replicate hc]
      rfl

theorem continuesNumber_eq_false_of_isSpace {c : Char} (h : isSpace c = true) :
    continuesNumber c = false := by
  simp only [isSpace, Bool.or_eq_true, decide_eq_true_eq] at h
  obtain ((rfl | rfl) | rfl) | rfl := h <;> rfl

theorem Scans.colon (layout : Layout) {s : List Char} {ts : List Token} (h : Scans s ts) :
    Scans (layout.colon.toList ++ s) (.colon :: ts) := by
  cases layout with
  | compact => exact .mark rfl (fun _ => rfl) h
  | lines depth =>
    have htext : (Layout.lines depth).colon.toList = [':', ' '] := by simp [Layout.colon]
    have hblank : ∀ c ∈ [' '], isSpace c = true := by simp [isSpace]
    rw [htext]
    exact .mark (c := ':') rfl (fun _ => rfl) (h.blanks hblank)

/-- Parts with commas and blanks between them. -/
theorem Scans.separated {α : Type} {blanks : List Char} (hblanks : ∀ c ∈ blanks, isSpace c = true)
    {text : α → List Char} {tokens : α → List Token} {items : List α}
    (h : ∀ a ∈ items, Scans (text a) (tokens a)) :
    Scans ((',' :: blanks).intercalate (items.map text))
      ([.comma].intercalate (items.map tokens)) := by
  induction items with
  | nil => exact .nil
  | cons a items ih =>
    obtain ⟨ha, hitems⟩ := List.forall_mem_cons.mp h
    cases items with
    | nil =>
      rw [List.map_singleton, List.map_singleton, List.intercalate_singleton,
        List.intercalate_singleton]
      exact ha
    | cons b items =>
      rw [List.map_cons, List.map_cons, List.map_cons, List.map_cons, List.intercalate_cons_cons,
        List.intercalate_cons_cons, List.append_assoc, List.append_assoc]
      exact ha.append (.mark rfl (fun _ => rfl) ((ih hitems).blanks hblanks)) (.cons rfl _)

/-- The characters of parts with commas and line breaks between them, in brackets or braces. -/
theorem toList_enclose (layout : Layout) (opening closing : String) {parts : List String}
    (hne : parts ≠ []) : (layout.enclose opening closing parts).toList =
      opening.toList ++ (layout.inner.lineBreak.toList ++
        ((',' :: layout.inner.lineBreak.toList).intercalate (parts.map String.toList) ++
          (layout.lineBreak.toList ++ closing.toList))) := by
  rw [Layout.enclose, if_neg (by simpa using hne)]
  simp only [String.toList_append, String.toList_intercalate, List.append_assoc]
  rfl

theorem Scans.enclose {α : Type} (layout : Layout) {l r : Char} {first last : Token}
    (hl : isSpace l = false ∧ ∀ rest, scan? (l :: rest) = some (first, rest))
    (hr : isSpace r = false ∧ ∀ rest, scan? (r :: rest) = some (last, rest))
    (hend : continuesNumber r = false) {opening closing : String} (hopening : opening.toList = [l])
    (hclosing : closing.toList = [r]) {text : α → String} {tokens : α → List Token} {items : List α}
    (h : ∀ a ∈ items, Scans (text a).toList (tokens a)) :
    Scans (layout.enclose opening closing (items.map text)).toList
      (first :: ([.comma].intercalate (items.map tokens) ++ [last])) := by
  have hclose : Scans closing.toList [last] := hclosing ▸ .mark hr.1 hr.2 .nil
  cases items with
  | nil =>
    show Scans (opening ++ closing).toList [first, last]
    rw [String.toList_append, hopening]
    exact .mark hl.1 hl.2 hclose
  | cons a items =>
    have hbreak := isSpace_of_mem_lineBreak layout
    have hbreak' := isSpace_of_mem_lineBreak layout.inner
    have hends : Ends continuesNumber (layout.lineBreak.toList ++ closing.toList) :=
      .append
        (fun c hc => continuesNumber_eq_false_of_isSpace (hbreak c (List.mem_of_mem_head? hc)))
        (hclosing ▸ .cons hend [])
    rw [toList_enclose layout opening closing (by simp), hopening, List.map_map,
      List.singleton_append]
    exact .mark hl.1 hl.2
      (((Scans.separated hbreak' h).append (hclose.blanks hbreak) hends).blanks hbreak')

/-! ## Values -/

/-- A value that can be read back: its numbers are integers of 64 bits, the members of its objects
are sorted, and it has at most `depth` nested containers. -/
inductive Exact : Nat → Json → Prop where
  | null {depth : Nat} : Exact depth .null
  | bool {depth : Nat} (b : Bool) : Exact depth (.bool b)
  | integer {depth : Nat} {n : Int} (hmin : -Int.ofNat (powerOfTwo 63) ≤ n)
      (hmax : n < Int.ofNat (powerOfTwo 64)) : Exact depth (.integer n)
  | string {depth : Nat} (s : String) : Exact depth (.string s)
  | array {depth : Nat} {items : List Json} (h : ∀ j ∈ items, Exact depth j) :
      Exact (depth + 1) (.array items)
  | object {depth : Nat} {members : List (String × Json)}
      (hsorted : (members.map Prod.fst).Pairwise (· < ·)) (h : ∀ m ∈ members, Exact depth m.2) :
      Exact (depth + 1) (.object members)

theorem itemTexts_eq_map (layout : Layout) (items : List Json) :
    itemTexts layout items = items.map (text layout) := by
  induction items with
  | nil => rw [itemTexts, List.map_nil]
  | cons j items ih => rw [itemTexts, ih, List.map_cons]

theorem memberTexts_eq_map (layout : Layout) (members : List (String × Json)) :
    memberTexts layout members =
      members.map fun m => stringText m.1 ++ layout.colon ++ text layout m.2 := by
  induction members with
  | nil => rw [memberTexts, List.map_nil]
  | cons m members ih => rw [memberTexts, ih, List.map_cons]

theorem itemValues?_map {depth : Nat} (h : ∀ j ∈ items, (tree j).value? depth = some j) :
    itemValues? depth (items.map tree) = some items := by
  induction items with
  | nil => rw [List.map_nil, itemValues?]
  | cons j items ih =>
    obtain ⟨hj, hitems⟩ := List.forall_mem_cons.mp h
    rw [List.map_cons, itemValues?, hj, ih hitems]
    rfl

theorem memberValues?_map {depth : Nat} {key : String → List Piece} {tree : String × Json → Tree}
    (hkey : ∀ name, pieceText? (key name) = some name)
    (h : ∀ m ∈ members, (tree m).value? depth = some m.2) :
    memberValues? depth (members.map fun m => (key m.1, tree m)) = some members := by
  induction members with
  | nil => rw [List.map_nil, memberValues?]
  | cons m members ih =>
    obtain ⟨hm, hmembers⟩ := List.forall_mem_cons.mp h
    rw [List.map_cons, memberValues?, hkey, hm, ih hmembers]
    rfl

/-- A member whose name comes behind all others is put behind them. -/
theorem insertMember_of_forall_lt {name : String} (value : Json)
    (h : ∀ m ∈ members, m.1 < name) :
    insertMember name value members = members ++ [(name, value)] := by
  induction members with
  | nil => rfl
  | cons m members ih =>
    obtain ⟨hm, hmembers⟩ := List.forall_mem_cons.mp h
    have hne : name ≠ m.1 := by
      rintro rfl
      exact String.lt_irrefl _ hm
    rw [insertMember, if_neg (String.lt_asymm hm), if_neg hne, ih hmembers, List.cons_append]

/-- Members that are sorted are the members of their object. -/
theorem ofMembers_of_sorted (h : members.Pairwise fun m m' => m.1 < m'.1) :
    ofMembers members = .object members := by
  have hfold : ∀ front : List (String × Json),
      (front ++ members).Pairwise (fun m m' => m.1 < m'.1) →
      members.foldl (fun sorted m => insertMember m.1 m.2 sorted) front = front ++ members := by
    clear h
    induction members with
    | nil => intro front _; rw [List.foldl_nil, List.append_nil]
    | cons m members ih =>
      intro front hsorted
      have hfront : ∀ m' ∈ front, m'.1 < m.1 := fun m' hm' =>
        (List.pairwise_append.mp hsorted).2.2 m' hm' m List.mem_cons_self
      rw [List.foldl_cons, insertMember_of_forall_lt m.2 hfront, ih]
      · rw [List.append_assoc, List.singleton_append]
      · rwa [List.append_assoc, List.singleton_append]
  exact congrArg Json.object (hfold [] h)

/-- The text of a value has the tokens of a document with that value. -/
theorem Exact.exists_document {depth : Nat} {j : Json} (h : Exact depth j) (layout : Layout) :
    ∃ tokens t, Scans (text layout j).toList tokens ∧ Builds tokens t ∧
      t.value? depth = some j := by
  induction h generalizing layout with
  | null =>
    refine ⟨[.null], .null, ?_, fun _ => rfl, ?_⟩
    · rw [text]
      exact .null
    · rw [Tree.value?]
  | bool b =>
    refine ⟨[.bool b], .bool b, ?_, fun _ => rfl, ?_⟩
    · rw [text]
      exact .bool b
    · rw [Tree.value?]
  | @integer depth n hmin hmax =>
    refine ⟨[.number (integerLiteral n)], .number (integerLiteral n), ?_, fun _ => rfl, ?_⟩
    · rw [text]
      exact .integer n
    · rw [Tree.value?, value?_integerLiteral hmin hmax]
  | string s =>
    obtain ⟨pieces, hscan, hpieces⟩ := exists_stringToken s
    refine ⟨[.string pieces], .string pieces, ?_, fun _ => rfl, ?_⟩
    · rw [text, ← List.append_nil (stringText s).toList]
      exact hscan .nil
    · rw [Tree.value?, hpieces]
      rfl
  | @array depth items _ ih =>
    have hitems : ∀ j ∈ items, ∃ tokens t, Scans (text layout.inner j).toList tokens ∧
        Builds tokens t ∧ t.value? depth = some j := fun j hj => ih j hj layout.inner
    choose! tokens tree hscans hbuilds hvalue using hitems
    refine ⟨_, _, ?_, .array hbuilds, ?_⟩
    · rw [text, itemTexts_eq_map]
      exact .enclose layout ⟨rfl, fun _ => rfl⟩ ⟨rfl, fun _ => rfl⟩ rfl rfl rfl hscans
    · rw [Tree.value?, itemValues?_map hvalue]
      rfl
  | @object depth members hsorted _ ih =>
    choose key hkey hname using exists_stringToken
    have hmembers : ∀ m ∈ members, ∃ tokens t, Scans (text layout.inner m.2).toList tokens ∧
        Builds tokens t ∧ t.value? depth = some m.2 := fun m hm => ih m hm layout.inner
    choose! tokens tree hscans hbuilds hvalue using hmembers
    refine ⟨_, _, ?_, .object key hbuilds, ?_⟩
    · rw [text, memberTexts_eq_map]
      refine .enclose layout (l := '\x7b') (r := '\x7d') ⟨rfl, fun _ => rfl⟩ ⟨rfl, fun _ => rfl⟩
        rfl rfl rfl fun m hm => ?_
      rw [String.toList_append, String.toList_append, List.append_assoc]
      exact hkey m.1 (.colon layout.inner (hscans m hm))
    · rw [Tree.value?, memberValues?_map hname hvalue]
      exact congrArg some (ofMembers_of_sorted (List.pairwise_map.mp hsorted))

/-- **A value is read back from its text.** -/
theorem read?_text {j : Json} (h : Exact greatestDepth j) (layout : Layout) :
    read? (text layout j) = some j := by
  obtain ⟨tokens, t, hscan, hbuild, hvalue⟩ := h.exists_document layout
  have hlex : lex (text layout j).toList = some tokens := by
    have := hscan [] (.nil _)
    rw [List.append_nil] at this
    rw [this, lex]
    exact congrArg some (List.append_nil tokens)
  have htokens : ofTokens? tokens = some t := by
    rw [ofTokens?, State.start, hbuild]
    rfl
  rw [read?, ofText?, hlex]
  show (ofTokens? tokens).bind _ = _
  rw [htokens]
  exact hvalue

/-! ## What is read is sorted -/

/-- The members of every object are sorted by their names, and each name occurs once. -/
inductive Sorted : Json → Prop where
  | null : Sorted .null
  | bool (b : Bool) : Sorted (.bool b)
  | integer (n : Int) : Sorted (.integer n)
  | double (x : Binary64) : Sorted (.double x)
  | string (s : String) : Sorted (.string s)
  | array {items : List Json} (h : ∀ j ∈ items, Sorted j) : Sorted (.array items)
  | object {members : List (String × Json)} (hsorted : (members.map Prod.fst).Pairwise (· < ·))
      (h : ∀ m ∈ members, Sorted m.2) : Sorted (.object members)

theorem Exact.sorted {depth : Nat} {j : Json} (h : Exact depth j) : j.Sorted := by
  induction h with
  | null => exact .null
  | bool b => exact .bool b
  | integer => exact .integer _
  | string s => exact .string s
  | array _ ih => exact .array ih
  | object hsorted _ ih => exact .object hsorted ih

theorem mem_insertMember {name : String} {value : Json} {m : String × Json}
    (h : m ∈ insertMember name value members) : m = (name, value) ∨ m ∈ members := by
  induction members with
  | nil => exact .inl (List.mem_singleton.mp h)
  | cons head members ih =>
    rw [insertMember] at h
    split_ifs at h
    · exact List.mem_cons.mp h
    · exact (List.mem_cons.mp h).imp_right (List.mem_cons_of_mem _)
    · obtain rfl | h := List.mem_cons.mp h
      · exact .inr List.mem_cons_self
      · exact (ih h).imp_right (List.mem_cons_of_mem _)

theorem insertMember_sorted (name : String) (value : Json)
    (h : members.Pairwise fun m m' => m.1 < m'.1) :
    (insertMember name value members).Pairwise fun m m' => m.1 < m'.1 := by
  induction members with
  | nil => exact List.pairwise_singleton _ _
  | cons head members ih =>
    obtain ⟨hhead, hmembers⟩ := List.pairwise_cons.mp h
    rw [insertMember]
    split_ifs with hlt heq
    · refine List.pairwise_cons.mpr ⟨List.forall_mem_cons.mpr ⟨hlt, fun m hm => ?_⟩, h⟩
      exact String.lt_trans hlt (hhead m hm)
    · exact List.pairwise_cons.mpr ⟨fun m hm => heq ▸ hhead m hm, hmembers⟩
    · refine List.pairwise_cons.mpr ⟨fun m hm => ?_, ih hmembers⟩
      obtain rfl | hm := mem_insertMember hm
      · exact Decidable.byContradiction fun hgt =>
          heq (String.le_antisymm (String.not_lt.mp hgt) (String.not_lt.mp hlt))
      · exact hhead m hm

/-- Whatever the order of its members is, and however often a name occurs, an object is sorted. -/
theorem ofMembers_sorted (h : ∀ m ∈ members, m.2.Sorted) : (ofMembers members).Sorted := by
  let Valid (sorted : List (String × Json)) : Prop :=
    sorted.Pairwise (fun m m' => m.1 < m'.1) ∧ ∀ m ∈ sorted, m.2.Sorted
  have hvalid : Valid (members.foldl (fun sorted m => insertMember m.1 m.2 sorted) []) := by
    refine List.foldlRecOn members _ ⟨.nil, List.forall_mem_nil _⟩ fun sorted hsorted m hm => ?_
    refine ⟨insertMember_sorted m.1 m.2 hsorted.1, fun m' hm' => ?_⟩
    obtain rfl | hm' := mem_insertMember hm'
    · exact h m hm
    · exact hsorted.2 m' hm'
  exact .object (List.pairwise_map.mpr hvalid.1) hvalid.2

mutual

theorem sorted_of_value? {depth : Nat} {j : Json} {t : Tree} (h : t.value? depth = some j) :
    j.Sorted := by
  cases t with
  | null =>
    rw [Tree.value?] at h
    exact Option.some.inj h ▸ .null
  | bool b =>
    rw [Tree.value?] at h
    exact Option.some.inj h ▸ .bool b
  | number n =>
    rw [Tree.value?, NumberLiteral.value?] at h
    split at h
    · exact Option.some.inj h ▸ .integer _
    · obtain ⟨x, -, rfl⟩ := Option.map_eq_some_iff.mp h
      exact .double _
  | string pieces =>
    rw [Tree.value?] at h
    obtain ⟨s, -, rfl⟩ := Option.map_eq_some_iff.mp h
    exact .string s
  | array items =>
    cases depth with
    | zero => simp [Tree.value?] at h
    | succ depth =>
      rw [Tree.value?] at h
      obtain ⟨values, hvalues, rfl⟩ := Option.map_eq_some_iff.mp h
      exact .array (sorted_of_itemValues? hvalues)
  | object members =>
    cases depth with
    | zero => simp [Tree.value?] at h
    | succ depth =>
      rw [Tree.value?] at h
      obtain ⟨values, hvalues, rfl⟩ := Option.map_eq_some_iff.mp h
      exact ofMembers_sorted (sorted_of_memberValues? hvalues)

theorem sorted_of_itemValues? {depth : Nat} {values : List Json} {items : List Tree}
    (h : itemValues? depth items = some values) : ∀ j ∈ values, j.Sorted := by
  cases items with
  | nil =>
    rw [itemValues?] at h
    exact Option.some.inj h ▸ List.forall_mem_nil _
  | cons t items =>
    rw [itemValues?] at h
    obtain ⟨j, hj, h⟩ := Option.bind_eq_some_iff.mp h
    obtain ⟨rest, hrest, h⟩ := Option.bind_eq_some_iff.mp h
    exact Option.some.inj h ▸
      List.forall_mem_cons.mpr ⟨sorted_of_value? hj, sorted_of_itemValues? hrest⟩

theorem sorted_of_memberValues? {depth : Nat} {values : List (String × Json)}
    {members : List (List Piece × Tree)} (h : memberValues? depth members = some values) :
    ∀ m ∈ values, m.2.Sorted := by
  cases members with
  | nil =>
    rw [memberValues?] at h
    exact Option.some.inj h ▸ List.forall_mem_nil _
  | cons m members =>
    obtain ⟨key, t⟩ := m
    rw [memberValues?] at h
    obtain ⟨name, -, h⟩ := Option.bind_eq_some_iff.mp h
    obtain ⟨j, hj, h⟩ := Option.bind_eq_some_iff.mp h
    obtain ⟨rest, hrest, h⟩ := Option.bind_eq_some_iff.mp h
    exact Option.some.inj h ▸
      List.forall_mem_cons.mpr ⟨sorted_of_value? hj, sorted_of_memberValues? hrest⟩

end

/-- The value of a text is sorted. -/
theorem sorted_of_read? {content : String} {j : Json} (h : read? content = some j) : j.Sorted := by
  obtain ⟨t, -, hvalue⟩ := Option.bind_eq_some_iff.mp h
  exact sorted_of_value? hvalue

end ExactLinear.Json
