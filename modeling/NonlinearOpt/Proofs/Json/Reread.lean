import NonlinearOpt.Json.Read
import NonlinearOpt.Proofs.Json.Format
import NonlinearOpt.Proofs.Json.Numeral
import NonlinearOpt.Proofs.Json.Scan

namespace NonlinearOpt.Json

namespace Reader

variable {β γ : Type}

/-- The answer of a reader that leaves a given rest. -/
def answer (x : Option β) (rest : Stream) : Except Fault (β × Stream) :=
  match x with
  | some b => .ok (b, rest)
  | none => .error .mismatch

theorem map_answer (x : Option β) (rest : Stream) (f : β → γ) :
    (answer x rest).map (fun (b, s) => (f b, s)) = answer (x.map f) rest := by
  cases x <;> rfl

end Reader

namespace Token

def startsValue : Token → Bool
  | closeBrace | closeBracket | comma | colon => false
  | _ => true

end Token

namespace Value

theorem tokens_of_isNull {v : Value} (h : v.isNull = true) : v.tokens = [.null] := by
  cases v with
  | null => rfl
  | number x =>
    have hx : ¬ x.isFinite = true := by simpa [isNull] using h
    exact if_neg hx
  | _ => cases h

theorem exists_tokens (v : Value) :
    ∃ t ts, v.tokens = t :: ts ∧ t.startsValue = true ∧ (v.isNull = false → t ≠ .null) := by
  cases v with
  | null =>
    refine ⟨_, _, rfl, rfl, fun hnull => ?_⟩
    cases hnull
  | number x =>
    unfold tokens
    split
    next =>
      refine ⟨_, _, rfl, rfl, fun _ h => ?_⟩
      cases h
    next hx =>
      refine ⟨_, _, rfl, rfl, fun hnull => ?_⟩
      rw [isNull, Bool.not_eq_false'] at hnull
      exact absurd hnull hx
  | natural _ | flag _ | text _ | list _ | record _ =>
    unfold tokens
    refine ⟨_, _, rfl, rfl, fun _ h => ?_⟩
    cases h

def nextTokens : List Value → List Token
  | [] => []
  | vs => .comma :: itemTokens vs

theorem length_itemTokens : (vs : List Value) → vs.length ≤ (itemTokens vs).length
  | [] => Nat.le_refl 0
  | [v] => by
    obtain ⟨t, ts, htokens, -, -⟩ := v.exists_tokens
    rw [itemTokens, htokens]
    simp
  | v :: w :: vs => by
    have := length_itemTokens (w :: vs)
    simp only [itemTokens, List.length_append, List.length_cons] at this ⊢
    omega

def nextFields : List (String × Value) → List Token
  | [] => []
  | fields => .comma :: fieldTokens fields

theorem fieldTokens_cons (name : String) (v : Value) (fields : List (String × Value)) :
    fieldTokens ((name, v) :: fields) =
      .text (.ok name.toList) :: .colon :: (v.tokens ++ nextFields fields) := by
  cases fields with
  | nil => rw [fieldTokens, nextFields, List.append_nil]
  | cons f fields => rfl

theorem length_fieldTokens : (fields : List (String × Value)) →
    fields.length ≤ (fieldTokens fields).length
  | [] => Nat.le_refl 0
  | [(name, v)] => by
    rw [fieldTokens]
    simp
  | (name, v) :: f :: fields => by
    have := length_fieldTokens (f :: fields)
    simp only [fieldTokens, List.length_append, List.length_cons] at this ⊢
    omega

theorem itemTokens_cons (v : Value) (vs : List Value) :
    itemTokens (v :: vs) = v.tokens ++ nextTokens vs := by
  cases vs with
  | nil => rw [itemTokens, nextTokens, List.append_nil]
  | cons w vs => rfl

end Value

open Value Json.Stream

theorem Stream.size_prepend (ts : List Token) (s : Stream) :
    (prepend ts s).size = ts.length + s.size := by
  induction ts with
  | nil => rw [prepend_nil, List.length_nil, Nat.zero_add]
  | cons t ts ih =>
    rw [prepend_cons, Stream.size, ih, List.length_cons]
    omega

namespace Reader

variable {β : Type} {item : Reader β}

theorem element_of_startsValue (s : Stream) {t : Token} (h : t.startsValue = true) :
    element item true (.next t s) = (item (.next t s)).map fun (x, s) => (some x, s) := by
  cases t with
  | closeBrace | closeBracket | comma | colon => cases h
  | _ => rfl

theorem element_of_comma (s : Stream) {t : Token} (h : t.startsValue = true) :
    element item false (.next .comma (.next t s)) =
      (item (.next t s)).map fun (x, s) => (some x, s) := by
  cases t with
  | closeBrace | closeBracket | comma | colon => cases h
  | _ => rfl

theorem element_tokens (isFirst : Bool) (v : Value) (vs : List Value) (s : Stream) :
    element item isFirst
        (prepend (if isFirst then itemTokens (v :: vs) else nextTokens (v :: vs)) s) =
      (item (prepend v.tokens (prepend (nextTokens vs) s))).map fun (x, s) => (some x, s) := by
  obtain ⟨t, ts, htokens, hstarts, -⟩ := v.exists_tokens
  cases isFirst with
  | true =>
    rw [if_pos rfl, itemTokens_cons, prepend_append, htokens]
    exact element_of_startsValue _ hstarts
  | false =>
    rw [if_neg (by decide), nextTokens, itemTokens_cons, prepend_cons, prepend_append, htokens]
    · exact element_of_comma _ hstarts
    · exact nofun

theorem elements_tokens {read : Reader Value} {reread : Value → Option Value} {vs : List Value}
    (hread : ∀ v ∈ vs, ∀ s, read (prepend v.tokens s) = answer (reread v) s) (isFirst : Bool)
    {fuel : Nat} (hfuel : vs.length < fuel) (rest : Stream) :
    elements read fuel isFirst
        (prepend (if isFirst then itemTokens vs else nextTokens vs) (.next .closeBracket rest)) =
      answer (vs.mapM reread) (.next .closeBracket rest) := by
  induction vs generalizing fuel isFirst with
  | nil =>
    cases fuel with
    | zero => cases hfuel
    | succ fuel => cases isFirst <;> rfl
  | cons v vs ih =>
    cases fuel with
    | zero => cases hfuel
    | succ fuel =>
      have hv := hread v List.mem_cons_self (prepend (nextTokens vs) (.next .closeBracket rest))
      have hvs := ih (fun w hw => hread w (List.mem_cons_of_mem v hw)) false
        (Nat.lt_of_succ_lt_succ hfuel)
      unfold elements
      rw [element_tokens, hv, List.mapM_cons]
      cases reread v with
      | none => rfl
      | some w =>
        show (elements read fuel false _ >>= _) = _
        rw [if_neg (by decide)] at hvs
        rw [hvs]
        cases vs.mapM reread <;> rfl

theorem list_tokens {read : Reader Value} {reread : Value → Option Value} {vs : List Value}
    (hread : ∀ v ∈ vs, ∀ s, read (prepend v.tokens s) = answer (reread v) s) (rest : Stream) :
    list read (prepend (Value.list vs).tokens rest) = answer (vs.mapM reread) rest := by
  have hfuel : vs.length < (prepend (itemTokens vs) (.next .closeBracket rest)).size + 1 := by
    have := length_itemTokens vs
    rw [size_prepend]
    omega
  have helements := elements_tokens hread true hfuel rest
  rw [if_pos rfl] at helements
  simp only [tokens, prepend_cons, prepend_append, prepend_nil]
  show (elements read _ true (prepend (itemTokens vs) (.next .closeBracket rest)) >>= _) = _
  rw [helements]
  cases vs.mapM reread <;> rfl

theorem pair_tokens {first second : Reader Value} {x y : Value} {x' y' : Option Value}
    (hx : ∀ s, first (prepend x.tokens s) = answer x' s)
    (hy : ∀ s, second (prepend y.tokens s) = answer y' s) (rest : Stream) :
    pair first second (prepend (Value.list [x, y]).tokens rest) =
      answer (do return (← x', ← y')) rest := by
  have hfirst : element first true (prepend (if true then itemTokens [x, y] else _) _) = _ :=
    element_tokens true x [y] (.next .closeBracket rest)
  have hsecond : element second false (prepend (if false then _ else nextTokens [y]) _) = _ :=
    element_tokens false y [] (.next .closeBracket rest)
  rw [if_pos rfl, hx] at hfirst
  rw [if_neg (by decide), hy] at hsecond
  simp only [tokens, prepend_cons, prepend_append, prepend_nil]
  show (required first true (prepend (itemTokens [x, y]) (.next .closeBracket rest)) >>= _) = _
  unfold required
  rw [hfirst]
  cases x' with
  | none => rfl
  | some x' =>
    show (element second false (prepend (nextTokens [y]) (.next .closeBracket rest)) >>= _ >>=
      _ : Except Fault _) = _
    rw [hsecond]
    cases y' <;> rfl

theorem nextKey_tokens (isFirst : Bool) (name : String) (v : Value)
    (fields : List (String × Value)) (s : Stream) :
    nextKey isFirst (prepend (if isFirst then fieldTokens ((name, v) :: fields)
        else nextFields ((name, v) :: fields)) s) =
      .ok (some name, .next .colon (prepend v.tokens (prepend (nextFields fields) s))) := by
  have hname : String.ofList name.toList = name := String.ofList_toList
  cases isFirst with
  | true =>
    rw [if_pos rfl, fieldTokens_cons]
    simp only [prepend_cons, prepend_append, nextKey, key, hname, if_true]
    rfl
  | false =>
    rw [if_neg (by decide), nextFields, fieldTokens_cons]
    · simp only [prepend_cons, prepend_append, nextKey, key, hname, Bool.false_eq_true, if_false]
      rfl
    · exact nofun

theorem option_of_ne_null {t : Token} (h : t ≠ .null) (s : Stream) :
    option item (.next t s) = (item (.next t s)).map fun (x, s) => (some x, s) := by
  cases t with
  | null => exact absurd rfl h
  | _ => rfl

theorem members_step {fields : List FieldReader} {fuel : Nat} {isFirst : Bool}
    {found : List (String × Value)} {s rest : Stream} {field : FieldReader}
    (hkey : nextKey isFirst s = .ok (some field.name, .next .colon rest))
    (hfind : fields.find? (·.name == field.name) = some field)
    (hnew : found.lookup field.name = none) :
    members fields (fuel + 1) isFirst found s =
      field.read rest >>= fun (v, s) => members fields fuel false ((field.name, v) :: found) s := by
  have hcolon : colon (.next .colon rest) = .ok ((), rest) := rfl
  have hnone : ¬ (found.lookup field.name).isSome = true := by simp [hnew]
  rw [members, hkey]
  simp only [bind, Except.bind, hfind, if_neg hnone, hcolon]

end Reader

namespace Shape

theorem find?_readers {fields : List (String × Shape)} (hnodup : (fields.map Prod.fst).Nodup)
    {name : String} {shape : Shape} (h : (name, shape) ∈ fields) :
    (readers fields).find? (·.name == name) = some ⟨name, shape.isOption, shape.read⟩ := by
  induction fields with
  | nil => cases h
  | cons f fields ih =>
    obtain ⟨hfresh, hnodup⟩ := List.nodup_cons.mp hnodup
    rw [readers]
    rcases List.mem_cons.mp h with rfl | h
    · exact List.find?_cons_of_pos (beq_self_eq_true name)
    · rw [List.find?_cons_of_neg]
      · exact ih hnodup h
      · intro hname
        exact hfresh (List.mem_map.mpr ⟨_, h, (eq_of_beq hname).symm⟩)

theorem readers_eq_map (fields : List (String × Shape)) :
    readers fields = fields.map fun f => ⟨f.1, f.2.isOption, f.2.read⟩ := by
  induction fields with
  | nil => rfl
  | cons f fields ih => rw [readers, ih, List.map_cons]

theorem map_fst_rereadAll {fields : List (String × Shape)} {values found : List (String × Value)}
    (hfits : FitsAll fields values) (h : rereadAll fields values = some found) :
    found.map Prod.fst = fields.map Prod.fst := by
  induction fields generalizing values found with
  | nil =>
    cases values with
    | cons => exact hfits.elim
    | nil =>
      cases h
      rfl
  | cons f fields ih =>
    cases values with
    | nil => exact hfits.elim
    | cons value values =>
      obtain ⟨hname, -, hfits⟩ := hfits
      rw [rereadAll] at h
      obtain ⟨w, -, h⟩ := Option.bind_eq_some_iff.mp h
      obtain ⟨ws, hws, h⟩ := Option.bind_eq_some_iff.mp h
      cases h
      rw [List.map_cons, List.map_cons, ih hfits hws, hname]

theorem members_field {all : List (String × Shape)} (hall : (all.map Prod.fst).Nodup)
    {name : String} {shape : Shape} (hmem : (name, shape) ∈ all) {v : Value}
    (hread : ∀ s, shape.read (prepend v.tokens s) = Reader.answer (shape.reread v) s)
    {found : List (String × Value)} (hnew : found.lookup name = none) (isFirst : Bool) (fuel : Nat)
    (values : List (String × Value)) (rest : Stream) :
    Reader.members (readers all) (fuel + 1) isFirst found
        (prepend (if isFirst then fieldTokens ((name, v) :: values)
          else nextFields ((name, v) :: values)) (.next .closeBrace rest)) =
      Reader.answer (shape.reread v) (prepend (nextFields values) (.next .closeBrace rest)) >>=
        fun (w, s) => Reader.members (readers all) fuel false ((name, w) :: found) s := by
  let field : Reader.FieldReader := ⟨name, shape.isOption, shape.read⟩
  have hlookup : found.lookup field.name = none := hnew
  have hfind : (readers all).find? (·.name == field.name) = some field := find?_readers hall hmem
  rw [Reader.members_step (Reader.nextKey_tokens isFirst name v values _) hfind hlookup]
  exact congrArg (· >>= _) (hread _)

theorem members_tokens {all fields : List (String × Shape)} {values : List (String × Value)}
    (hall : (all.map Prod.fst).Nodup) (hfields : fields <:+ all) (hfits : FitsAll fields values)
    (hread : ∀ f ∈ fields, ∀ v, f.2.Fits v → ∀ s,
      f.2.read (prepend v.tokens s) = Reader.answer (f.2.reread v) s)
    {found : List (String × Value)} (hfound : ∀ f ∈ fields, found.lookup f.1 = none)
    (isFirst : Bool) {fuel : Nat} (hfuel : values.length < fuel) (rest : Stream) :
    Reader.members (readers all) fuel isFirst found
        (prepend (if isFirst then fieldTokens values else nextFields values)
          (.next .closeBrace rest)) =
      Reader.answer ((rereadAll fields values).map (found.reverse ++ ·)) rest := by
  induction fields generalizing values found fuel isFirst with
  | nil =>
    cases values with
    | cons => exact hfits.elim
    | nil =>
      cases fuel with
      | zero => cases hfuel
      | succ fuel =>
        rw [rereadAll, Option.map_some, List.append_nil]
        · cases isFirst <;> rfl
        · intros
          contradiction
  | cons f fields ih =>
    obtain ⟨name, shape⟩ := f
    cases values with
    | nil => exact hfits.elim
    | cons value values =>
      obtain ⟨name', v⟩ := value
      obtain ⟨rfl, hv, hfits⟩ := hfits
      cases fuel with
      | zero => cases hfuel
      | succ fuel =>
        have hnodup := (hfields.sublist.map Prod.fst).nodup hall
        obtain ⟨hfresh, -⟩ := List.nodup_cons.mp hnodup
        rw [members_field hall (hfields.subset List.mem_cons_self)
          (hread _ List.mem_cons_self v hv) (hfound _ List.mem_cons_self), rereadAll]
        cases shape.reread v with
        | none => rfl
        | some w =>
          -- names differ, so the fields to come have not been found
          have hnext : ∀ f ∈ fields, List.lookup f.1 ((name', w) :: found) = none := by
            intro f hf
            have hne : f.1 ≠ name' := fun h => hfresh (List.mem_map.mpr ⟨f, hf, h⟩)
            rw [List.lookup_cons, beq_false_of_ne hne]
            exact hfound f (List.mem_cons_of_mem _ hf)
          have hrest := ih ((List.suffix_cons _ fields).trans hfields) hfits
            (fun f hf => hread f (List.mem_cons_of_mem _ hf)) hnext false
            (Nat.lt_of_succ_lt_succ hfuel)
          rw [if_neg (by decide)] at hrest
          show Reader.members (readers all) fuel false ((name', w) :: found) _ = _
          rw [hrest]
          cases rereadAll fields values with
          | none => rfl
          | some ws =>
            simp only [Option.map_some, List.reverse_cons, List.append_assoc]
            rfl

theorem isComplete_rereadAll {fields : List (String × Shape)}
    {values found : List (String × Value)} (hfits : FitsAll fields values)
    (h : rereadAll fields values = some found) :
    Reader.isComplete (readers fields) found = true := by
  have hnames := map_fst_rereadAll hfits h
  unfold Reader.isComplete
  rw [readers_eq_map, List.all_map, List.all_eq_true]
  intro f hf
  have hname : f.1 ∈ found.map Prod.fst := by
    rw [hnames]
    exact List.mem_map_of_mem hf
  obtain ⟨entry, hentry, hfst⟩ := List.mem_map.mp hname
  have hsome : (found.lookup f.1).isSome = true :=
    List.lookup_isSome_iff.mpr ⟨entry, hentry, by rw [hfst]; exact beq_self_eq_true f.1⟩
  exact Bool.or_eq_true_iff.mpr (.inr hsome)

theorem record_tokens {fields : List (String × Shape)} {values : List (String × Value)}
    (hnodup : (fields.map Prod.fst).Nodup) (hfits : FitsAll fields values)
    (hread : ∀ f ∈ fields, ∀ v, f.2.Fits v → ∀ s,
      f.2.read (prepend v.tokens s) = Reader.answer (f.2.reread v) s)
    (isOpen : Bool) (rest : Stream) :
    Reader.record (readers fields) isOpen (prepend (Value.record values).tokens rest) =
      Reader.answer ((rereadAll fields values).map .record) rest := by
  have hfuel :
      values.length < (prepend (fieldTokens values) (.next .closeBrace rest)).size + 1 := by
    have := length_fieldTokens values
    rw [size_prepend]
    omega
  have hmembers := members_tokens hnodup (List.suffix_refl fields) hfits hread
    (fun _ _ => List.lookup_nil) true hfuel rest
  rw [if_pos rfl] at hmembers
  simp only [tokens, prepend_cons, prepend_append, prepend_nil]
  show (Reader.members (readers fields) _ true [] (prepend (fieldTokens values)
    (.next .closeBrace rest)) >>= _) = _
  rw [hmembers]
  cases hfound : rereadAll fields values with
  | none => rfl
  | some found =>
    show (if isOpen || Reader.isComplete (readers fields) found then _ else _) = _
    rw [isComplete_rereadAll hfits hfound, Bool.or_true, if_pos rfl]
    rfl

mutual

/-- Where a value of a shape was written, it is read back, or a mismatch is found. -/
theorem read_tokens : (shape : Shape) → {v : Value} → shape.Fits v → (rest : Stream) →
    shape.read (prepend v.tokens rest) = Reader.answer (shape.reread v) rest
  | number, .number x, _, rest => by
    unfold tokens reread
    split
    next hx =>
      simp only [prepend_cons, prepend_nil, read, Reader.number, Numeral.toFloat?_shortest hx]
      rfl
    next => rfl
  | natural limit, .natural n, h, rest => by
    have hsome := Numeral.isSome_toFloat?_ofNat (Nat.lt_of_le_of_lt h.1 h.2)
    have hnone : ¬ (Numeral.ofNat n).toFloat?.isNone = true := by
      rw [← Option.not_isSome, hsome]
      decide
    simp only [tokens, prepend_cons, prepend_nil, read, Reader.natural, if_neg hnone,
      Numeral.toNat?_ofNat, if_pos h.1]
    rfl
  | flag, .flag b, _, rest => rfl
  | text, .text s, _, rest => by
    simp only [tokens, prepend_cons, prepend_nil, read, Reader.text, String.ofList_toList]
    rfl
  | list item, .list vs, h, rest => by
    simp only [read]
    rw [Reader.list_tokens (fun v hv s => read_tokens item (h v hv) s)]
    exact Reader.map_answer _ _ _
  | pair a b, .list [x, y], h, rest => by
    simp only [read]
    rw [Reader.pair_tokens (fun s => read_tokens a h.1 s) (fun s => read_tokens b h.2 s), reread]
    cases a.reread x with
    | none => rfl
    | some x' => cases b.reread y <;> rfl
  | option a, v, h, rest => by
    unfold reread
    cases hnull : v.isNull with
    | true =>
      rw [tokens_of_isNull hnull]
      rfl
    | false =>
      have hv : a.Fits v := by
        refine h.resolve_left ?_
        rintro rfl
        cases hnull
      have hread := read_tokens a hv rest
      obtain ⟨t, ts, htokens, -, ht⟩ := v.exists_tokens
      rw [htokens, prepend_cons] at hread ⊢
      simp only [read, Reader.option_of_ne_null (ht hnull), hread]
      cases a.reread v <;> rfl
  | choice names, .text s, h, rest => by
    have hname : names.contains s = true := List.contains_iff_mem.mpr h
    simp only [tokens, prepend_cons, prepend_nil, read, Reader.choice, Reader.name, Reader.text,
      String.ofList_toList]
    show Except.map _ (if names.contains s then _ else _) = _
    rw [if_pos hname]
    rfl
  | record fields isOpen, .record found, h, rest => by
    simp only [read]
    rw [record_tokens h.2 h.1 (readAll_tokens fields) isOpen rest, reread]

theorem readAll_tokens : (fields : List (String × Shape)) → ∀ f ∈ fields, ∀ v, f.2.Fits v → ∀ s,
    f.2.read (prepend v.tokens s) = Reader.answer (f.2.reread v) s
  | [], _, hf, _, _, _ => nomatch hf
  | (name, shape) :: fields, f, hf, v, hv, s => by
    rcases List.mem_cons.mp hf with rfl | hf
    · exact read_tokens shape hv s
    · exact readAll_tokens fields f hf v hv s

end

theorem parse_write {shape : Shape} {v : Value} (h : shape.Fits v) :
    shape.parse v.write = answered (shape.reread v) := by
  unfold parse
  rw [ofString_write, read_tokens shape h]
  cases shape.reread v <;> rfl

end Shape

theorem faithful_compact : Format.Faithful := by
  have hread : ∀ (shape : Shape) (v : Value), shape.Fits v →
      Format.parse shape (Format.write v) = answered (shape.reread v) :=
    fun _ _ => Shape.parse_write
  have hnull : ∀ x : Float, x.isFinite = false →
      Format.write (.number x) = Format.write .null := by
    intro x hx
    have htokens : (Value.number x).tokens = Value.null.tokens :=
      Value.tokens_of_isNull (by simpa [Value.isNull] using hx)
    exact congrArg (fun ts => String.ofList (ts.flatMap Token.written)) htokens
  constructor
  case write_of_not_finite => exact hnull
  case number_of_null =>
    have hnan : (0 / 0 : Float).isFinite = false := by decide +kernel
    have h := hread .number (.number (0 / 0)) trivial
    rw [hnull _ hnan, Shape.reread, hnan] at h
    exact h
  case option_of_null => exact fun shape => hread (.option shape) .null (.inl rfl)
  case number =>
    intro x hx
    rw [hread .number (.number x) trivial, Shape.reread, if_pos hx]
    rfl
  case natural => exact fun limit n hn hlimit => hread (.natural limit) (.natural n) ⟨hn, hlimit⟩
  case flag => exact fun b => hread .flag (.flag b) trivial
  case text => exact fun s => hread .text (.text s) trivial
  case choice => exact fun names s hs => hread (.choice names) (.text s) hs
  case option =>
    intro shape v hv hfits
    rw [hread (.option shape) v (.inr hfits), hread shape v hfits, Shape.reread, hv]
    rfl
  case list =>
    intro shape vs hfits
    rw [hread (.list shape) (.list vs) hfits, Shape.reread, answered_map,
      mapM_eq_answered fun v hv => hread shape v (hfits v hv)]
  case pair =>
    intro a b x y hx hy
    rw [hread (.pair a b) (.list [x, y]) ⟨hx, hy⟩, hread a x hx, hread b y hy,
      Shape.reread]
    cases a.reread x with
    | none => rfl
    | some x' => cases b.reread y <;> rfl
  case record =>
    intro fields isOpen found hfits hnodup
    rw [hread (.record fields isOpen) (.record found) ⟨hfits, hnodup⟩, Shape.reread,
      answered_map, Format.parseAll_eq_answered (fun f _ v hv => hread f.2 v hv) hfits]

end NonlinearOpt.Json
