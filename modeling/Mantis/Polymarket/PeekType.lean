import Mantis.Lib.Json
import Mantis.Lib.TextSearch
import Mantis.Polymarket.Decode

/-!
# Mantis.Polymarket.PeekType

Message type detection (`peek_type` in `crates/polymarket/src/market/decoder.rs`) against
the JSON document in the buffer.

`peek_type` searches the raw bytes for `"type":"`. In a well-formed document that text
starts at the opening quote of a member name, or at an escaped quote inside one, and then
runs over the colon to the opening quote of the value. So the search finds the first
member, at any depth, that is written this way (`tag?`), and what is returned is the text
of its value up to a quote.
-/

namespace Mantis

open TextSearch
open Json (Blank Escape HexDigit Items Member Members ObjectDocument Piece Plain Text Value blanks)

/-! ### The search in bytes -/

/-- The pattern, as characters. -/
def typePattern : List Char := ['"', 't', 'y', 'p', 'e', '"', ':', '"']

/-- `memchr_find` locates the first occurrence. -/
theorem memchrFind_eq {needle : List UInt8} (hne : needle ≠ []) (haystack : List UInt8) :
    (memchrFind haystack needle).map (fun pos => haystack.drop (pos + needle.length)) =
      afterFirst needle haystack := by
  have hpos := List.length_pos_of_ne_nil hne
  induction haystack with
  | nil =>
      rw [memchrFind, if_pos (show ([] : List UInt8).length < needle.length from hpos)]
      rfl
  | cons b bs ih =>
      by_cases hlen : (b :: bs).length < needle.length
      · rw [memchrFind, if_pos hlen, afterFirst_eq_none_of_length hlen]
        rfl
      · rw [memchrFind, if_neg hlen, List.range_succ_eq_map, List.find?_cons, List.drop_zero]
        by_cases hpre : needle <+: b :: bs
        · have hhere : ((b :: bs).take needle.length == needle) = true :=
            beq_iff_eq.mpr (List.prefix_iff_eq_take.mp hpre).symm
          rw [hhere, afterFirst, if_pos hpre, Option.map_some, Nat.zero_add]
        · have hhere : ((b :: bs).take needle.length == needle) = false :=
            beq_eq_false_iff_ne.mpr fun heq => hpre (List.prefix_iff_eq_take.mpr heq.symm)
          rw [hhere, afterFirst_step hpre, ← ih, List.find?_map, Option.map_map, memchrFind]
          rw [List.length_cons] at hlen ⊢
          by_cases hshort : bs.length < needle.length
          · have hempty : bs.length + 1 - needle.length = 0 := by omega
            rw [if_pos hshort, hempty]
            rfl
          · have hmore : bs.length + 1 - needle.length = bs.length - needle.length + 1 := by omega
            rw [if_neg hshort, hmore]
            refine congrArg₂ Option.map (funext fun pos => ?_) rfl
            show (b :: bs).drop (pos + 1 + needle.length) = bs.drop (pos + needle.length)
            rw [Nat.add_right_comm, List.drop_succ_cons]

/-- `memchr_byte` locates the first occurrence. -/
theorem memchrByte_eq (byte : UInt8) (haystack : List UInt8) :
    (memchrByte byte haystack).map (fun stop => haystack.take stop) = before byte haystack := by
  induction haystack with
  | nil => rfl
  | cons b bs ih =>
      rw [memchrByte, List.findIdx?_cons, before]
      by_cases hb : b = byte
      · subst hb
        simp
      · have hmem : byte ∈ b :: bs ↔ byte ∈ bs := by
          rw [List.mem_cons]
          exact or_iff_right (Ne.symm hb)
        rw [beq_eq_false_iff_ne.mpr hb, if_neg Bool.false_ne_true, Option.map_map,
          List.takeWhile_cons_of_pos (by simpa using hb)]
        simp only [hmem]
        rw [memchrByte, before] at ih
        by_cases hin : byte ∈ bs
        · rw [if_pos hin] at ih ⊢
          obtain ⟨stop, hstop, htake⟩ := Option.map_eq_some_iff.mp ih
          rw [hstop, ← htake]
          rfl
        · rw [if_neg hin, Option.map_eq_none_iff] at ih
          rw [if_neg hin, ih]
          rfl

/-- `peek_type` on characters. -/
def peekText (text : List Char) : Option (List Char) :=
  (afterFirst typePattern text).bind (before '"')

theorem peekType_bytes (text : List Char) :
    peekType (bytes text) = (peekText text).map String.ofList := by
  have hneedle : "\"type\":\"".toUTF8.data.toList = bytes typePattern := by
    rw [← bytes_toList]
    rfl
  have hascii : ∀ c ∈ typePattern, IsAscii c := by simp [typePattern, IsAscii]
  have hsplit : ∀ buf : List UInt8, peekType buf =
      ((memchrFind buf (bytes typePattern)).map
        fun pos => buf.drop (pos + (bytes typePattern).length)).bind fun remaining =>
      ((memchrByte 34 remaining).map fun stop => remaining.take stop).bind fun value =>
        String.fromUTF8? ⟨value.toArray⟩ := by
    intro buf
    rw [peekType, hneedle]
    cases memchrFind buf (bytes typePattern) with
    | none => rfl
    | some pos =>
        simp only [Option.bind_eq_bind, Option.bind_some, Option.map_some]
        cases memchrByte 34 (buf.drop (pos + (bytes typePattern).length)) with
        | none => rfl
        | some stop => rfl
  rw [hsplit, memchrFind_eq (by decide), afterFirst_bytes (by decide) hascii, peekText]
  cases afterFirst typePattern text with
  | none => rfl
  | some rest =>
      have hbefore := before_bytes (show IsAscii '"' by decide) rest
      simp only [Option.map_some, Option.bind_some]
      rw [memchrByte_eq, show (34 : UInt8) = UInt8.ofNat '"'.toNat from rfl, hbefore]
      cases before '"' rest with
      | none => rfl
      | some value => exact fromUTF8?_bytes value

/-! ### The pattern in a string -/

/-- The word between the first two quotes of the pattern. -/
def typeWord : List Char := ['t', 'y', 'p', 'e']

/-- The name as it is written, from its opening quote on, ends in `"type`: it is `type`, or
it ends in an escaped quote and `type`. -/
def Tags (name : Text) : Prop := '"' :: typeWord <:+ '"' :: name.spelling

instance (name : Text) : Decidable (Tags name) :=
  inferInstanceAs (Decidable ('"' :: typeWord <:+ '"' :: name.spelling))

/-- An unescaped word that runs up to a quote is the whole rest of the string. -/
theorem word_prefix_iff {word : List Char} (hword : ∀ c ∈ word, c ≠ '"' ∧ c ≠ '\\') (t : Text)
    (v k : List Char) :
    word ++ '"' :: v <+: t.spelling ++ '"' :: k ↔ t.spelling = word ∧ v <+: k := by
  induction word generalizing t with
  | nil =>
      cases t with
      | nil => simp
      | cons p t =>
          have hother : ∀ {c : Char} {cs : List Char}, p.spelling = c :: cs → '"' ≠ c := by
            intro c cs hp
            cases p with
            | plain d =>
                cases hp
                exact Ne.symm d.ne_quote
            | escape e =>
                cases hp
                decide
            | unicode _ _ _ _ =>
                cases hp
                decide
          cases hp : p.spelling with
          | nil => cases p <;> cases hp
          | cons c cs => simp [hp, hother hp]
  | cons c word ih =>
      obtain ⟨hquote, hbackslash⟩ := hword c List.mem_cons_self
      have ih := ih (fun d hd => hword d (List.mem_cons_of_mem c hd))
      cases t with
      | nil => simp [hquote]
      | cons p t =>
          cases p with
          | plain d =>
              rw [Text.spelling_cons, Piece.spelling, List.singleton_append, List.cons_append,
                List.cons_append, List.cons_prefix_cons, ih t, List.cons.injEq, and_assoc,
                eq_comm (a := c)]
          | escape e => simp [Piece.spelling, hbackslash, Ne.symm hbackslash]
          | unicode _ _ _ _ => simp [Piece.spelling, hbackslash, Ne.symm hbackslash]

theorem typeWord_plain : ∀ c ∈ typeWord, c ≠ '"' ∧ c ≠ '\\' := by simp [typeWord]

/-- The search at a quote, when the search behind it is known. -/
theorem afterFirst_quote {t : Text} {k : List Char}
    (h : afterFirst typePattern (t.spelling ++ '"' :: k) =
      if '"' :: typeWord <:+ t.spelling ∧ [':', '"'] <+: k then some (k.drop 2)
      else afterFirst typePattern k) :
    afterFirst typePattern ('"' :: (t.spelling ++ '"' :: k)) =
      if '"' :: typeWord <:+ '"' :: t.spelling ∧ [':', '"'] <+: k then some (k.drop 2)
      else afterFirst typePattern k := by
  have hhere : typePattern <+: '"' :: (t.spelling ++ '"' :: k) ↔
      t.spelling = typeWord ∧ [':', '"'] <+: k := by
    rw [← word_prefix_iff typeWord_plain]
    exact List.cons_prefix_cons.trans (and_iff_right rfl)
  have hends : '"' :: typeWord <:+ '"' :: t.spelling ↔
      t.spelling = typeWord ∨ '"' :: typeWord <:+ t.spelling := by
    rw [List.suffix_cons_iff, List.cons.injEq, eq_comm (a := typeWord)]
    simp
  by_cases hfound : t.spelling = typeWord ∧ [':', '"'] <+: k
  · rw [if_pos ⟨hends.mpr (Or.inl hfound.1), hfound.2⟩, hfound.1]
    obtain ⟨rest, rfl⟩ := hfound.2
    have hne : typePattern ≠ [] := by decide
    exact afterFirst_append hne
  · rw [afterFirst_step (fun hpre => hfound (hhere.mp hpre)), h]
    by_cases hcolon : [':', '"'] <+: k
    · have hne : ¬ t.spelling = typeWord := fun heq => hfound ⟨heq, hcolon⟩
      simp only [hends, hne, false_or]
    · rw [if_neg (fun hand => hcolon hand.2), if_neg (fun hand => hcolon hand.2)]

/-- The search from inside a string: it ends at the string's last word, or goes on behind
the string. -/
theorem afterFirst_spelling (t : Text) {k : List Char} (hk : k.head? ≠ some 't') :
    afterFirst typePattern (t.spelling ++ '"' :: k) =
      if '"' :: typeWord <:+ t.spelling ∧ [':', '"'] <+: k then some (k.drop 2)
      else afterFirst typePattern k := by
  induction t with
  | nil =>
      rw [if_neg (fun hand => absurd hand.1.length_le (by decide)), Text.spelling_nil,
        List.nil_append, afterFirst_step]
      intro hpre
      cases k with
      | nil => exact absurd hpre (by decide)
      | cons c k =>
          obtain ⟨-, hrest⟩ := List.cons_prefix_cons.mp hpre
          exact hk (congrArg some (List.cons_prefix_cons.mp hrest).1.symm)
  | cons p t ih =>
      -- only an escaped quote can start the pattern
      have hskip : ∀ {gap rest : List Char}, '"' ∉ gap →
          afterFirst typePattern (gap ++ rest) = afterFirst typePattern rest :=
        fun hgap => afterFirst_skip hgap _
      by_cases hp : p = .escape .quote
      · subst hp
        have hspell : Text.spelling (.escape .quote :: t) = ['\\'] ++ '"' :: Text.spelling t := rfl
        have hquote : '"' ∉ ['\\'] := by simp
        rw [hspell, List.append_assoc, hskip hquote]
        simp only [suffix_append_iff hquote]
        exact afterFirst_quote ih
      · have hquote := Piece.quote_notMem hp
        rw [Text.spelling_cons, List.append_assoc, hskip hquote]
        simp only [suffix_append_iff hquote]
        exact ih

/-- The search at a string. -/
theorem afterFirst_quoted (t : Text) {k : List Char} (hk : k.head? ≠ some 't') :
    afterFirst typePattern (t.quoted ++ k) =
      if Tags t ∧ [':', '"'] <+: k then some (k.drop 2) else afterFirst typePattern k := by
  have htext : t.quoted ++ k = '"' :: (t.spelling ++ '"' :: k) := by
    simp [Text.quoted]
  rw [htext]
  exact afterFirst_quote (afterFirst_spelling t hk)

/-! ### The pattern in a document -/

/-- The value of a member that is written in the way of the pattern: the name, the colon and
a string, with nothing in between. -/
def tag? (m : Member) : Option Text :=
  match m.value with
  | .string t => if Tags m.name ∧ m.beforeColon = [] ∧ m.afterColon = [] then some t else none
  | .literal _ | .number _ | .array _ _ | .object _ _ => none

/-- A string as it is written, up to its first quote. -/
def cut (t : Text) : List Char := t.spelling.takeWhile (· ≠ '"')

/-- What `peek_type` makes of the members it comes across. -/
def firstTag (members : List Member) : Option (List Char) := (members.filterMap tag?).head?.map cut

theorem firstTag_append (ms ns : List Member) :
    firstTag (ms ++ ns) = (firstTag ms).or (firstTag ns) := by
  rw [firstTag, List.filterMap_append, List.head?_append, Option.map_or]
  rfl

theorem firstTag_cons (m : Member) (ms : List Member) :
    firstTag (m :: ms) = ((tag? m).map cut).or (firstTag ms) := by
  rw [firstTag, List.filterMap_cons]
  cases tag? m with
  | none => rfl
  | some t => rfl

theorem peekText_skip {gap : List Char} (h : '"' ∉ gap) (rest : List Char) :
    peekText (gap ++ rest) = peekText rest := congrArg (Option.bind · _) (afterFirst_skip h rest)

theorem peekText_cons {c : Char} (h : '"' ≠ c) (rest : List Char) :
    peekText (c :: rest) = peekText rest :=
  peekText_skip (fun hmem => h (List.mem_singleton.mp hmem)) rest

/-- What may follow a value: whitespace, a comma, a closing bracket or the end. -/
def Follows (k : List Char) : Prop := k.head? ≠ some ':' ∧ k.head? ≠ some 't'

theorem follows_cons {c : Char} (hcolon : c ≠ ':') (ht : c ≠ 't') (k : List Char) :
    Follows (c :: k) :=
  ⟨fun heq => hcolon (Option.some.inj heq), fun heq => ht (Option.some.inj heq)⟩

theorem blank_char_ne (b : Blank) : b.char ≠ ':' ∧ b.char ≠ 't' ∧ b.char ≠ '"' := by
  cases b <;> decide

theorem Follows.blanks {k : List Char} (h : Follows k) (bs : List Blank) :
    Follows (blanks bs ++ k) := by
  cases bs with
  | nil => exact h
  | cons b bs =>
      obtain ⟨hcolon, ht, -⟩ := blank_char_ne b
      exact follows_cons hcolon ht _

/-- A text starts with a quote only if it has one there. -/
theorem not_starts_with_quote {u : List Char} (hne : u ≠ []) (hquote : '"' ∉ u) (k : List Char) :
    ¬ ['"'] <+: u ++ k := by
  obtain ⟨c, cs, rfl⟩ := List.exists_cons_of_ne_nil hne
  intro h
  exact hquote ((List.cons_prefix_cons.mp h).1 ▸ List.mem_cons_self)

theorem quote_prefix_iff (v : Value) (k : List Char) :
    ['"'] <+: v.spelling ++ k ↔ ∃ t, v = .string t := by
  cases v with
  | literal l =>
      have hne : l.spelling ≠ [] := by cases l <;> decide
      exact iff_of_false (not_starts_with_quote hne l.quote_notMem k) (by simp)
  | number n => exact iff_of_false (not_starts_with_quote n.spelling_ne_nil n.quote_notMem k) (by simp)
  | string t => exact iff_of_true (List.cons_prefix_cons.mpr ⟨rfl, List.nil_prefix⟩) ⟨t, rfl⟩
  | array inner items =>
      refine iff_of_false (fun h => ?_) (by simp)
      rw [Value.spelling] at h
      exact absurd (List.cons_prefix_cons.mp h).1 (by simp)
  | object inner members =>
      refine iff_of_false (fun h => ?_) (by simp)
      rw [Value.spelling] at h
      exact absurd (List.cons_prefix_cons.mp h).1 (by simp)

/-- A colon and a quote right after a name: the value is a string and follows at once. -/
theorem colon_prefix_iff (bs cs : List Blank) (v : Value) (k : List Char) :
    [':', '"'] <+: blanks bs ++ (':' :: (blanks cs ++ (v.spelling ++ k))) ↔
      bs = [] ∧ cs = [] ∧ ∃ t, v = .string t := by
  cases bs with
  | cons b bs =>
      refine iff_of_false (fun h => ?_) (by simp)
      exact (blank_char_ne b).1 (List.cons_prefix_cons.mp h).1.symm
  | nil =>
      have hcolon : [':', '"'] <+: blanks [] ++ (':' :: (blanks cs ++ (v.spelling ++ k))) ↔
          ['"'] <+: blanks cs ++ (v.spelling ++ k) := List.cons_prefix_cons.trans (and_iff_right rfl)
      rw [hcolon]
      cases cs with
      | cons c cs =>
          refine iff_of_false (fun h => ?_) (by simp)
          exact (blank_char_ne c).2.2 (List.cons_prefix_cons.mp h).1.symm
      | nil =>
          rw [and_iff_right rfl, and_iff_right rfl]
          exact quote_prefix_iff v k

/-- The search at a member: it ends here if the member is written in the way of the pattern,
and goes on with the value if not. -/
theorem peekText_member (m : Member) (k : List Char) :
    peekText (m.name.quoted ++ (blanks m.beforeColon ++ (':' ::
      (blanks m.afterColon ++ (m.value.spelling ++ k))))) =
      ((tag? m).map cut).or (peekText (m.value.spelling ++ k)) := by
  obtain ⟨name, bs, cs, v⟩ := m
  dsimp only
  have hhead : (blanks bs ++ (':' :: (blanks cs ++ (v.spelling ++ k)))).head? ≠ some 't' := by
    cases bs with
    | nil => exact fun heq => absurd (Option.some.inj heq) (by simp)
    | cons b bs => exact fun heq => (blank_char_ne b).2.1 (Option.some.inj heq)
  have htail := colon_prefix_iff bs cs v k
  rw [peekText, afterFirst_quoted name hhead]
  by_cases htag : Tags name ∧ [':', '"'] <+: blanks bs ++ (':' :: (blanks cs ++ (v.spelling ++ k)))
  · obtain ⟨hname, hcolon⟩ := htag
    rw [if_pos ⟨hname, hcolon⟩]
    obtain ⟨rfl, rfl, t, rfl⟩ := htail.mp hcolon
    have hvalue : (blanks [] ++ (':' :: (blanks [] ++ (Value.spelling (.string t) ++ k)))).drop 2 =
        t.spelling ++ '"' :: k := by
      simp [blanks, Value.spelling, Text.quoted]
    have hfound : tag? ⟨name, [], [], .string t⟩ = some t := if_pos ⟨hname, rfl, rfl⟩
    rw [hvalue, hfound]
    exact before_append_cons '"' t.spelling k
  · have hnone : tag? ⟨name, bs, cs, v⟩ = none := by
      cases v with
      | string t => exact if_neg fun h => htag ⟨h.1, htail.mpr ⟨h.2.1, h.2.2, t, rfl⟩⟩
      | literal _ => rfl
      | number _ => rfl
      | array _ _ => rfl
      | object _ _ => rfl
    rw [if_neg htag, hnone]
    show peekText (blanks bs ++ (':' :: (blanks cs ++ (v.spelling ++ k)))) = _
    rw [peekText_skip (Json.quote_notMem_blanks bs), peekText_cons (by simp),
      peekText_skip (Json.quote_notMem_blanks cs)]
    rfl

theorem Follows.items {k : List Char} (h : Follows k) (items : Items) :
    Follows (items.spelling [','] ++ k) := by
  cases items with
  | nil =>
      rw [Items.spelling]
      exact h
  | cons _ _ _ _ =>
      rw [Items.spelling]
      exact follows_cons (by simp) (by simp) _

theorem Follows.members {k : List Char} (h : Follows k) (members : Members) :
    Follows (members.spelling [','] ++ k) := by
  cases members with
  | nil =>
      rw [Members.spelling]
      exact h
  | cons _ _ _ _ _ _ _ =>
      rw [Members.spelling]
      exact follows_cons (by simp) (by simp) _

mutual

/-- The search at a value: its first tag, or whatever comes behind the value. -/
theorem peekText_value (v : Value) {k : List Char} (hk : Follows k) :
    peekText (v.spelling ++ k) = (firstTag v.allMembers).or (peekText k) := by
  cases v with
  | literal l =>
      rw [Value.spelling, Value.allMembers, peekText_skip l.quote_notMem]
      rfl
  | number n =>
      rw [Value.spelling, Value.allMembers, peekText_skip n.quote_notMem]
      rfl
  | string t =>
      have hcolon : ¬ (Tags t ∧ [':', '"'] <+: k) := by
        rintro ⟨-, rest, rfl⟩
        exact hk.1 rfl
      rw [Value.spelling, Value.allMembers, peekText, afterFirst_quoted t hk.2, if_neg hcolon]
      rfl
  | array inner items =>
      have hend : Follows (']' :: k) := follows_cons (by simp) (by simp) k
      have htext : Value.spelling (.array inner items) ++ k =
          '[' :: (blanks inner ++ (items.spelling [] ++ (']' :: k))) := by
        simp [Value.spelling]
      rw [htext, peekText_cons (by simp), peekText_skip (Json.quote_notMem_blanks inner),
        peekText_items items List.not_mem_nil hend, peekText_cons (by simp), Value.allMembers]
  | object inner members =>
      have hend : Follows ('\x7d' :: k) := follows_cons (by simp) (by simp) k
      have htext : Value.spelling (.object inner members) ++ k =
          '\x7b' :: (blanks inner ++ (members.spelling [] ++ ('\x7d' :: k))) := by
        simp [Value.spelling]
      rw [htext, peekText_cons (by simp), peekText_skip (Json.quote_notMem_blanks inner),
        peekText_members members List.not_mem_nil hend, peekText_cons (by simp), Value.allMembers]

theorem peekText_items (items : Items) {separator k : List Char} (hseparator : '"' ∉ separator)
    (hk : Follows k) :
    peekText (items.spelling separator ++ k) = (firstTag items.allMembers).or (peekText k) := by
  cases items with
  | nil =>
      rw [Items.spelling, Items.allMembers]
      rfl
  | cons before v after rest =>
      have hcomma : '"' ∉ [','] := by simp
      rw [Items.spelling, Items.allMembers, firstTag_append]
      simp only [List.append_assoc]
      rw [peekText_skip hseparator, peekText_skip (Json.quote_notMem_blanks before),
        peekText_value v ((hk.items rest).blanks after),
        peekText_skip (Json.quote_notMem_blanks after), peekText_items rest hcomma hk,
        Option.or_assoc]

theorem peekText_members (members : Members) {separator k : List Char}
    (hseparator : '"' ∉ separator) (hk : Follows k) :
    peekText (members.spelling separator ++ k) = (firstTag members.allMembers).or (peekText k) := by
  cases members with
  | nil =>
      rw [Members.spelling, Members.allMembers]
      rfl
  | cons before name beforeColon afterColon v after rest =>
      have hcomma : '"' ∉ [','] := by simp
      have hmember := peekText_member ⟨name, beforeColon, afterColon, v⟩
        (blanks after ++ (rest.spelling [','] ++ k))
      rw [Members.spelling, Members.allMembers, firstTag_cons, firstTag_append]
      simp only [List.append_assoc, List.cons_append]
      rw [peekText_skip hseparator, peekText_skip (Json.quote_notMem_blanks before), hmember,
        peekText_value v ((hk.members rest).blanks after),
        peekText_skip (Json.quote_notMem_blanks after), peekText_members rest hcomma hk,
        Option.or_assoc, Option.or_assoc]

end

/-! ### Documents -/

/-- The member with value `t` is the first in the document, at any depth, that is written in
the way of the pattern. -/
def IsFirstTag (doc : ObjectDocument) (t : Text) : Prop :=
  ∃ earlier m later, doc.members.allMembers = earlier ++ m :: later ∧ tag? m = some t ∧
    ∀ m' ∈ earlier, tag? m' = none

/-- The code units of `type`. -/
def typeUnits : List Nat := [0x74, 0x79, 0x70, 0x65]

/-- The object itself has a member named `type` with the escape-free string value `v`. -/
def HasType (doc : ObjectDocument) (v : String) : Prop :=
  ∃ m ∈ doc.members.toList, m.name.units = typeUnits ∧
    ∃ t, m.value = .string t ∧ t.EscapeFree ∧ String.ofList t.spelling = v

/-- What `decode` does with a message of the given type. -/
def PolymarketMarketDecoder.dispatch {D : Nat} (json : PolymarketJson)
    (dec : PolymarketMarketDecoder D) (frame : Frame) (out : OutBuffer) (msgType : String) :
    PolymarketMarketDecoder D × OutBuffer × Nat :=
  match msgType with
  | "price_change" => dec.decodePriceChange json frame out
  | "last_trade_price" => dec.decodeTrade json frame out
  | "book" => dec.decodeBookInto json frame out
  | _ => (dec, out, 0)

theorem PolymarketMarketDecoder.decode_of_peekType {D : Nat} {frame : Frame} {msgType : String}
    (h : peekType frame.buf = some msgType) (json : PolymarketJson)
    (dec : PolymarketMarketDecoder D) (out : OutBuffer) :
    dec.decode json frame out = dec.dispatch json frame out msgType := by
  have hbuf : ¬ frame.buf.isEmpty = true := by
    intro hempty
    have hnone : peekType [] = none := by decide
    rw [List.isEmpty_iff.mp hempty, hnone] at h
    cases h
  unfold decode
  refine (if_neg hbuf).trans ?_
  generalize peekType frame.buf = found at h
  subst h
  rfl

theorem firstTag_eq_some {doc : ObjectDocument} {w : List Char} :
    firstTag doc.members.allMembers = some w ↔ ∃ t, IsFirstTag doc t ∧ cut t = w := by
  rw [firstTag, List.head?_filterMap, Option.map_eq_some_iff]
  refine exists_congr fun t => and_congr_left fun _ => ?_
  rw [List.findSome?_eq_some_iff]
  rfl

/-- On a document `peek_type` returns the text of its first tag. -/
theorem peekType_eq_some (doc : ObjectDocument) (v : String) :
    peekType (bytes doc.spelling) = some v ↔
      ∃ t, IsFirstTag doc t ∧ String.ofList (cut t) = v := by
  have hend : Follows (blanks doc.after) := by
    have hnil : Follows [] := ⟨nofun, nofun⟩
    simpa using hnil.blanks doc.after
  have hafter : peekText (blanks doc.after) = none := by
    have hskip := peekText_skip (Json.quote_notMem_blanks doc.after) []
    rw [List.append_nil] at hskip
    exact hskip
  rw [peekType_bytes, ObjectDocument.spelling,
    peekText_skip (Json.quote_notMem_blanks doc.before), peekText_value _ hend, hafter,
    Option.or_none, Value.allMembers, Option.map_eq_some_iff]
  constructor
  · rintro ⟨w, hw, rfl⟩
    obtain ⟨t, ht, rfl⟩ := firstTag_eq_some.mp hw
    exact ⟨t, ht, rfl⟩
  · rintro ⟨t, ht, rfl⟩
    exact ⟨cut t, firstTag_eq_some.mpr ⟨t, ht, rfl⟩, rfl⟩

theorem IsFirstTag.unique {doc : ObjectDocument} {t u : Text} (ht : IsFirstTag doc t)
    (hu : IsFirstTag doc u) : cut t = cut u := by
  have htag := firstTag_eq_some.mpr ⟨t, ht, rfl⟩
  rw [firstTag_eq_some.mpr ⟨u, hu, rfl⟩] at htag
  exact (Option.some.inj htag).symm

/-- **What `peek_type` detects.** On every well-formed JSON object it returns the text, up to
a quote, of the first member at any depth that is written in the way of the pattern. It
agrees with the object's own member named `type` exactly when there is neither, or when
that text is the one escape-free value of such members; and then `decode` dispatches on
that value. -/
theorem peekType_document (doc : ObjectDocument) :
    (∀ v, peekType (bytes doc.spelling) = some v ↔
      ∃ t, IsFirstTag doc t ∧ String.ofList (cut t) = v) ∧
    ((∀ v, peekType (bytes doc.spelling) = some v ↔ HasType doc v) ↔
      (¬ ∃ t, IsFirstTag doc t) ∧ (¬ ∃ v, HasType doc v) ∨
        ∃ t, IsFirstTag doc t ∧ ∀ v, HasType doc v ↔ String.ofList (cut t) = v) ∧
    ∀ v, peekType (bytes doc.spelling) = some v →
      ∀ {D : Nat} (json : PolymarketJson) (dec : PolymarketMarketDecoder D) (recvTs : Timestamp)
        (out : OutBuffer), dec.decode json ⟨bytes doc.spelling, recvTs⟩ out =
          dec.dispatch json ⟨bytes doc.spelling, recvTs⟩ out v := by
  have hpeek := peekType_eq_some doc
  have hfirst : ∀ {t}, IsFirstTag doc t → ∀ v, peekType (bytes doc.spelling) = some v ↔
      String.ofList (cut t) = v := by
    intro t ht v
    rw [hpeek]
    constructor
    · rintro ⟨u, hu, rfl⟩
      rw [ht.unique hu]
    · intro heq
      exact ⟨t, ht, heq⟩
  refine ⟨hpeek, ⟨fun hagree => ?_, fun hcond v => ?_⟩, fun v hv D json dec recvTs out => ?_⟩
  · by_cases htag : ∃ t, IsFirstTag doc t
    · obtain ⟨t, ht⟩ := htag
      exact Or.inr ⟨t, ht, fun v => (hagree v).symm.trans (hfirst ht v)⟩
    · refine Or.inl ⟨htag, ?_⟩
      rintro ⟨v, hv⟩
      obtain ⟨t, ht, -⟩ := (hpeek v).mp ((hagree v).mpr hv)
      exact htag ⟨t, ht⟩
  · rcases hcond with ⟨htag, htype⟩ | ⟨t, ht, hall⟩
    · rw [hpeek]
      exact iff_of_false (fun ⟨t, ht, _⟩ => htag ⟨t, ht⟩) fun hv => htype ⟨v, hv⟩
    · exact (hfirst ht v).trans (hall v).symm
  · exact PolymarketMarketDecoder.decode_of_peekType hv json dec out

/-- A message of type `book`, with `afterColon` before the type. -/
def bookMessage (afterColon : List Blank) : ObjectDocument :=
  ⟨[], [], .cons [] (Text.ofChars "type".toList) [] afterColon
    (.string (Text.ofChars "book".toList)) [] .nil, []⟩

theorem hasType_bookMessage (afterColon : List Blank) : HasType (bookMessage afterColon) "book" := by
  have hname : (Text.ofChars "type".toList).units = typeUnits := by decide
  exact ⟨_, List.mem_singleton_self _, hname, _, rfl, by decide, by decide⟩

theorem peekType_document_compact :
    bytes (bookMessage []).spelling = "\x7b\"type\":\"book\"\x7d".toUTF8.data.toList ∧
      peekType (bytes (bookMessage []).spelling) = some "book" ∧
      ∀ (json : PolymarketJson) (dec : PolymarketMarketDecoder 6) (out : OutBuffer),
        dec.decode json ⟨bytes (bookMessage []).spelling, ⟨0⟩⟩ out =
          dec.decodeBookInto json ⟨bytes (bookMessage []).spelling, ⟨0⟩⟩ out := by
  obtain ⟨hpeek, -, hdispatch⟩ := peekType_document (bookMessage [])
  have hfirst : IsFirstTag (bookMessage []) (Text.ofChars "book".toList) :=
    ⟨[], _, [], rfl, by decide, by simp⟩
  have hbook : peekType (bytes (bookMessage []).spelling) = some "book" :=
    (hpeek "book").mpr ⟨_, hfirst, by decide⟩
  refine ⟨by rw [← bytes_toList]; decide, hbook, fun json dec out => ?_⟩
  exact hdispatch "book" hbook json dec ⟨0⟩ out

/-- The same message behind a member with a type of its own. -/
def nestedMessage : ObjectDocument :=
  ⟨[], [], .cons [] (Text.ofChars "a".toList) [] []
    (.object [] (.cons [] (Text.ofChars "type".toList) [] []
      (.string (Text.ofChars "x".toList)) [] .nil)) [] (bookMessage []).members, []⟩

/-- A space after the colon hides the type from `peek_type`, and a member of an inner object
passes for it. -/
theorem peekType_document_spaced :
    bytes (bookMessage [.space]).spelling =
        "\x7b\"type\": \"book\"\x7d".toUTF8.data.toList ∧
      HasType (bookMessage [.space]) "book" ∧
      peekType (bytes (bookMessage [.space]).spelling) = none ∧
      bytes nestedMessage.spelling =
        "\x7b\"a\":\x7b\"type\":\"x\"\x7d,\"type\":\"book\"\x7d".toUTF8.data.toList ∧
      ¬ HasType nestedMessage "x" ∧ peekType (bytes nestedMessage.spelling) = some "x" := by
  have hinner : ¬ HasType nestedMessage "x" := by
    rintro ⟨m, hm, hname, t, hvalue, -, hx⟩
    rcases List.mem_cons.mp hm with rfl | hm
    · exact absurd hname (by decide)
    · rw [List.mem_singleton.mp hm] at hvalue
      cases hvalue
      exact absurd hx (by decide)
  refine ⟨by rw [← bytes_toList]; decide, hasType_bookMessage _, by decide,
    by rw [← bytes_toList]; decide, hinner, by decide⟩

end Mantis
