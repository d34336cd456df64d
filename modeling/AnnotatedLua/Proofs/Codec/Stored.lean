/-
Reading any bytes. Wherever reading fails, the table stays well-formed and loses nothing, and what is read holds stored
handles only (`decode_stored`). Its unions are canonical exactly if none that was read had to be refused
(`decode_unions`).
-/
import AnnotatedLua.Proofs.Codec.Reading
import AnnotatedLua.Proofs.Union.Members

namespace AnnotatedLua.Codec

open TypeTable Pairing.After

variable {p : Pairing} {α β : Type} {t : TypeTable} {c c' : Cursor} {e : DecodeError} {ty : Ty}

/-! ## Readers that refuse -/

def canonicalOnly (reader : Decoder Ty) : Decoder Ty := do
  let ty ← reader
  let t := (← get).types
  if t.kind ty = .union → t.CanonicalMembers (t.members ty) then return ty
  else throw (.badTag .kind Kind.union.tag (← offset))

/-- A type that nests at most to the given depth, with unions in canonical form only. -/
def readCanonicalBelow : Nat → Decoder Ty
  | 0 => throw .tooDeep
  | n + 1 => canonicalOnly (readType (readCanonicalBelow n))

/-- Reads one type that takes up all of the bytes. -/
def decodeBy (reader : Decoder Ty) (bytes : List UInt8) (t : TypeTable) : Except DecodeError Ty × TypeTable :=
  match reader.run ⟨bytes, 0, t⟩ with
  | (.ok ty, c) => (if c.rest.isEmpty then .ok ty else .error (.trailing c.rest.length), c.types)
  | (.error e, c) => (.error e, c.types)

/-- Reads one type, with unions in canonical form only. -/
def decodeCanonical (bytes : List UInt8) (t : TypeTable) : Except DecodeError Ty × TypeTable :=
  decodeBy (readCanonicalBelow maxDepth) bytes t

theorem decode_eq (bytes : List UInt8) (t : TypeTable) : decode bytes t = decodeBy (readBelow maxDepth) bytes t := rfl

/-! ## Running readers -/

section
variable {reader : Decoder α} {next : α → Decoder β}

theorem run_bind_error (h : reader.run c = (.error e, c')) :
    (reader >>= next).run c = (.error e, c') := run_bindCont h

theorem run_bind_ok_iff {b : β} : (reader >>= next).run c = (.ok b, c') ↔
    ∃ a c1, reader.run c = (.ok a, c1) ∧ (next a).run c1 = (.ok b, c') := by
  constructor
  · intro h
    rcases hfirst : reader.run c with ⟨e | a, c1⟩
    · rw [run_bind_error hfirst] at h
      cases h
    · rw [run_bind hfirst] at h
      exact ⟨a, c1, rfl, h⟩
  · rintro ⟨a, _, hfirst, h⟩
    rw [run_bind hfirst, h]

theorem canonicalOnly_bind (next : α → Decoder Ty) :
    canonicalOnly (reader >>= next) = reader >>= fun a => canonicalOnly (next a) := by
  unfold canonicalOnly
  rw [bind_assoc]

theorem run_canonicalOnly_iff {reader : Decoder Ty} : (canonicalOnly reader).run c = (.ok ty, c') ↔
    reader.run c = (.ok ty, c') ∧ (c'.types.kind ty = .union → c'.types.CanonicalMembers (c'.types.members ty)) := by
  -- the look at the union moves nothing
  have hlook : ∀ (ty' : Ty) (c1 : Cursor), (do
      let t := (← get).types
      if t.kind ty' = .union → t.CanonicalMembers (t.members ty') then return ty'
      else throw (.badTag .kind Kind.union.tag (← offset)) : Decoder Ty).run c1 =
      if c1.types.kind ty' = .union → c1.types.CanonicalMembers (c1.types.members ty') then (.ok ty', c1)
      else (.error (.badTag .kind Kind.union.tag c1.offset), c1) := by
    intro ty' c1
    show (if c1.types.kind ty' = .union → c1.types.CanonicalMembers (c1.types.members ty') then _
      else _ : Decoder Ty).run c1 = _
    split <;> rfl
  unfold canonicalOnly
  rw [run_bind_ok_iff]
  constructor
  · rintro ⟨_, _, hread, h⟩
    rw [hlook] at h
    split at h <;> cases h
    exact ⟨hread, by assumption⟩
  · rintro ⟨hread, h⟩
    refine ⟨ty, c', hread, ?_⟩
    rw [hlook, if_pos h]

theorem decodeBy_ok_iff {reader : Decoder Ty} {bytes : List UInt8} {t' : TypeTable} :
    decodeBy reader bytes t = (.ok ty, t') ↔ ∃ n, reader.run ⟨bytes, 0, t⟩ = (.ok ty, ⟨[], n, t'⟩) := by
  constructor
  · intro h
    unfold decodeBy at h
    rcases hrun : reader.run ⟨bytes, 0, t⟩ with ⟨e | _, rest, n, _⟩
    all_goals rw [hrun] at h
    · cases h
    · cases rest with
      | nil =>
        cases h
        exact ⟨n, rfl⟩
      | cons => cases h
  · rintro ⟨n, hrun⟩
    unfold decodeBy
    rw [hrun]
    rfl
end

/-! ## Putting readers together -/

def Safe (p : Pairing) {α : Type} [Value α] (reader : Decoder α) : Prop :=
  ∀ (c : Cursor) (h : c.types.WF) [p.After (pairing h h)] r (c' : Cursor), reader.run c = (r, c') →
    ∃ k : c'.types.WF, c.types.Extends c'.types ∧ (c.types.Sorted → c'.types.Sorted) ∧ ∀ a, r = .ok a → k.Stores a

structure Strict (p : Pairing) {α : Type} [Value α] (reader strict : Decoder α) : Prop where
  safe : Safe p reader
  exact : ∀ (c : Cursor) (h : c.types.WF) [p.After (pairing h h)], c.types.Canonical → ∀ a (c' : Cursor),
    strict.run c = (.ok a, c') ↔ reader.run c = (.ok a, c') ∧ c'.types.Canonical

section
variable [Value α] [Value β]
variable {reader : Decoder α}

theorem Safe.later (hr : Safe p reader) (h : c.types.WF)
    [hp : p.After h.self] {a : α} (hrun : reader.run c = (.ok a, c')) :
    ∃ k : c'.types.WF, p.After k.self ∧ Same k.self a a := by
  obtain ⟨k, hx, -, ha⟩ := hr c h _ _ hrun
  exact ⟨k, hp.trans (pairing_after hx hx), ha a rfl⟩

theorem Safe.bind {next : α → Decoder β} (hr : Safe p reader)
    (hn : ∀ (q : Pairing) [p.After q] (a : α) [Same q a a], Safe q (next a)) : Safe p (reader >>= next) := by
  intro c h _ r c' hrun
  rcases hfirst : reader.run c with ⟨e | a, c1⟩
  all_goals obtain ⟨k, hx, hsorted, -⟩ := hr c h _ _ hfirst
  · rw [run_bind_error hfirst] at hrun
    cases hrun
    exact ⟨k, hx, hsorted, nofun⟩
  · rw [run_bind hfirst] at hrun
    obtain ⟨_, _, _⟩ := hr.later h hfirst
    have hnext := hn k.self a
    have hself := refl k.self
    obtain ⟨l, hy, hsorted', hb⟩ := hnext c1 k r c' hrun
    exact ⟨l, hx.trans hy, hsorted' ∘ hsorted, hb⟩

namespace Strict

theorem of_types (ht : ∀ c, (reader.run c).2.types = c.types)
    (ha : ∀ q : Pairing, [p.After q] → ∀ c a c', reader.run c = (.ok a, c') → Same q a a) : Strict p reader reader := by
  constructor
  · intro c h hp r c' hrun
    have htypes : c'.types = c.types := by rw [← ht c, hrun]
    have hstored := fun a (he : r = .ok a) => ha h.self c a c' (by rw [hrun, he])
    obtain ⟨_, n, t⟩ := c'
    subst htypes
    exact ⟨h, .refl _, id, hstored⟩
  · intro c h _ _ a c'
    refine ⟨fun hrun => ⟨hrun, ?_⟩, fun hrun => hrun.1⟩
    have htypes : c'.types = c.types := by rw [← ht c, hrun]
    rwa [htypes]

theorem pure {a : α} [ha : Same p a a] : Strict p (Pure.pure a) (Pure.pure a) := by
  refine of_types (fun _ => rfl) fun q _ c b _ hrun => ?_
  cases hrun
  exact ha.upTo q

theorem throw : Strict p (MonadExcept.throw e : Decoder α) (MonadExcept.throw e) :=
  of_types (fun _ => rfl) nofun

theorem bind {reader strict : Decoder α} {next next' : α → Decoder β} (hr : Strict p reader strict)
    (hn : ∀ (q : Pairing) [p.After q] (a : α) [Same q a a], Strict q (next a) (next' a)) :
    Strict p (reader >>= next) (strict >>= next') := by
  refine ⟨hr.safe.bind fun q _ a _ => (hn q a).safe, ?_⟩
  intro c h _ hc b c'
  rw [run_bind_ok_iff, run_bind_ok_iff]
  have hlater : ∀ {a c1}, reader.run c = (.ok a, c1) →
      ∃ k : c1.types.WF, Strict k.self (next a) (next' a) := by
    intro a c1 hfirst
    obtain ⟨k, _, _⟩ := hr.safe.later h hfirst
    exact ⟨k, hn k.self a⟩
  constructor
  · rintro ⟨a, c1, hfirst, hsecond⟩
    obtain ⟨hfirst, hc1⟩ := (hr.exact c h hc a c1).1 hfirst
    obtain ⟨k, hnext⟩ := hlater hfirst
    have hself := refl k.self
    obtain ⟨hsecond, hc'⟩ := (hnext.exact c1 k hc1 b c').1 hsecond
    exact ⟨⟨a, c1, hfirst, hsecond⟩, hc'⟩
  · rintro ⟨⟨a, c1, hfirst, hsecond⟩, hc'⟩
    obtain ⟨k, hnext⟩ := hlater hfirst
    have hself := refl k.self
    -- the table in between is smaller than the last one, so it is canonical, too
    obtain ⟨l, hy, -, -⟩ := hnext.safe c1 k _ _ hsecond
    have hc1 := canonical_downward _ _ k l hy hc'
    exact ⟨a, c1, (hr.exact c h hc a c1).2 ⟨hfirst, hc1⟩, (hnext.exact c1 k hc1 b c').2 ⟨hsecond, hc'⟩⟩

theorem ite {c : Prop} [Decidable c] {reader strict reader' strict' : Decoder α} (h : Strict p reader strict)
    (h' : Strict p reader' strict') : Strict p (if c then reader else reader') (if c then strict else strict') := by
  split
  · exact h
  · exact h'

theorem store {act : Interning α} (hact : act.Grows)
    (hs : ∀ (t : TypeTable) (h : t.WF) [p.After h.self], ∃ k : (act t).2.WF, k.Stores (act t).1)
    (hu : ∀ (t : TypeTable) (h : t.WF) [p.After h.self] (Q : TypeTable → List Ty → Prop),
      Lasting Q → t.Unions Q → (act t).2.Unions Q) : Strict p (Codec.store act) (Codec.store act) := by
  constructor
  · intro c h hp r c' hrun
    cases hrun
    obtain ⟨k, ha⟩ := hs c.types h
    refine ⟨k, hact c.types, hu c.types h _ inOrder_lasting, fun a he => ?_⟩
    cases he
    exact ha
  · intro c h _ hc a _
    refine ⟨fun hrun => ⟨hrun, ?_⟩, fun hrun => hrun.1⟩
    cases hrun
    exact hu c.types h _ canonicalMembers_lasting hc

theorem only {reader strict : Decoder Ty} (hr : Strict p reader strict) : Strict p reader (canonicalOnly strict) := by
  refine ⟨hr.safe, fun c h _ hc ty c' => ?_⟩
  rw [run_canonicalOnly_iff, hr.exact c h hc ty c']
  refine ⟨fun hrun => hrun.1, fun hrun => ⟨hrun, fun hk => ?_⟩⟩
  exact hrun.2 ty _ (lookup_of_union hk)

theorem bindOnly {reader strict : Decoder α} {next next' : α → Decoder Ty} (hr : Strict p reader strict)
    (hn : ∀ (q : Pairing) [p.After q] (a : α) [Same q a a], Strict q (next a) (canonicalOnly (next' a))) :
    Strict p (reader >>= next) (canonicalOnly (strict >>= next')) := by
  rw [canonicalOnly_bind]
  exact hr.bind hn

end Strict
end

/-! ## Bytes and texts -/

theorem strict_take (n : Nat) : Strict p (take n) (take n) := by
  refine .of_types (fun c => ?_) fun q _ _ a _ _ => inferInstanceAs (Same q a a)
  show (StateT.run (if n ≤ c.rest.length then _ else _ : Decoder (List UInt8)) c).2.types = _
  split <;> rfl

theorem strict_offset : Strict p offset offset :=
  .of_types (fun _ => rfl) fun q _ _ a _ _ => inferInstanceAs (Same q a a)

theorem strict_byte : Strict p readByte readByte := (strict_take 1).bind fun _ _ _ _ => .pure

theorem strict_word : Strict p readWord readWord := (strict_take 4).bind fun _ _ _ _ => .pure

theorem strict_length : Strict p readLength readLength := by
  refine .bind strict_offset fun _ _ _ _ => .bind strict_word fun _ _ n _ => ?_
  refine .of_types (fun c => ?_) fun q _ _ a _ _ => inferInstanceAs (Same q a a)
  show (StateT.run (if n ≤ c.rest.length then _ else _ : Decoder Nat) c).2.types = _
  split <;> rfl

theorem strict_flag : Strict p readFlag readFlag := by
  refine .bind strict_offset fun _ _ _ _ => .bind strict_byte fun _ _ tag _ => ?_
  split
  · exact .pure
  · exact .pure
  · exact .throw

theorem strict_primitive : Strict p readPrimitive readPrimitive := by
  refine .bind strict_offset fun _ _ _ _ => .bind strict_byte fun _ _ tag _ => ?_
  split
  · exact .pure
  · exact .throw

theorem strict_kind : Strict p readKind readKind := by
  refine .bind strict_offset fun _ _ _ _ => .bind strict_byte fun _ _ tag _ => ?_
  split
  · exact .pure
  · exact .throw

theorem strict_symbol : Strict p readSymbol readSymbol := by
  refine .bind strict_length fun _ _ n _ => .bind strict_offset fun _ _ _ _ => ?_
  refine (strict_take n).bind fun _ _ _ _ => ?_
  split
  · rename_i text _
    refine .store (fun t => t.internText_extends text) (fun t h _ => ?_) fun t h _ Q hQ hu => ?_
    · exact ⟨h.internText text, internText_same h h text⟩
    · exact hu.of_forms hQ (t.internText_extends text) h (h.internText text) rfl
  · exact .throw

/-! ## Types -/

section
variable [Value α] {item item' : Decoder α}

section
variable (hi : ∀ (q : Pairing) [p.After q], Strict q item item')
include hi

theorem strict_times (n : Nat) : Strict p (readTimes item n) (readTimes item' n) := by
  induction n generalizing p with
  | zero => exact .pure
  | succ n ih =>
    have := refl p
    refine (hi p).bind fun q hq a _ => (ih fun r hr => @hi r (hq.trans hr)).bind fun r _ l _ => .pure

theorem strict_list : Strict p (readList item) (readList item') :=
  .bind strict_length fun _ hq n _ => strict_times (fun r hr => @hi r (hq.trans hr)) n

theorem strict_optional : Strict p (readOptional item) (readOptional item') :=
  .bind strict_flag fun q _ _ _ => .ite ((hi q).bind fun _ _ _ _ => .pure) .pure
end

theorem strict_form {form : Form} [hf : Same p form form] (hform : form.kind ≠ .union) :
    Strict p (store (.form form)) (canonicalOnly (store (.form form))) := by
  refine .only (.store (fun t => t.intern_extends form) (fun t h _ => ?_) fun t h _ Q hQ hu => ?_)
  · obtain ⟨k, _, hs⟩ := intern_same (hf.upTo h.self)
    exact ⟨k, hs⟩
  · have hholds : t.Holds form := (holds_of_same (hf.upTo h.self)).1
    refine hu.intern hQ h hholds fun _ he => absurd ?_ hform
    rw [he]
    rfl

theorem strict_unionOf {members : List Ty} [hm : Same p members members] :
    Strict p (store (.unionOf members)) (canonicalOnly (store (.unionOf members))) := by
  constructor
  · intro c h hp r c' hrun
    cases hrun
    have hsame := hm.upTo h.self
    obtain ⟨k, _, hs⟩ := unionOf_same hsame
    have hstored := (sameTypes_iff.1 hsame).1
    refine ⟨k, c.types.unionOf_extends members, fun hsorted => hsorted.unionOf h hstored, fun a he => ?_⟩
    cases he
    exact hs
  · intro c h _ hc ty c'
    have hstored := (sameTypes_iff.1 (hm.upTo h.self)).1
    rw [run_canonicalOnly_iff]
    refine and_congr_right fun hrun => ?_
    have hread : ty = (c.types.unionOf members).1 ∧ c'.types = (c.types.unionOf members).2 := by
      cases hrun
      exact ⟨rfl, rfl⟩
    rw [hread.1, hread.2, hc.unionOf_iff h hstored]
    constructor
    · intro hlook _ hl
      have hchildren := hlook (by unfold kind; rw [hl]; rfl)
      unfold TypeTable.members at hchildren
      rwa [hl] at hchildren
    · exact fun hlook hk => hlook _ (lookup_of_union hk)

variable {part part' : Decoder Ty} (hpart : ∀ (q : Pairing) [p.After q], Strict q part part')
include hpart

theorem strict_parameter : Strict p (readParameter part) (readParameter part') := by
  refine .bind strict_symbol fun q hq _ _ => .bind strict_flag fun r hr _ _ => ?_
  exact (strict_optional fun u hu => @hpart u ((hq.trans hr).trans hu)).bind fun u _ _ _ => .pure

theorem strict_signature : Strict p (readSignature part) (readSignature part') := by
  refine .bind strict_flag fun q hq _ _ => ?_
  refine (strict_list fun u hu => @hpart u (hq.trans hu)).bind fun r hr _ _ => ?_
  have hr := hq.trans hr
  refine (strict_list fun u hu => strict_parameter fun v hv => @hpart v ((hr.trans hu).trans hv)).bind
    fun u hu _ _ => ?_
  have hu := hr.trans hu
  refine (strict_optional fun v hv => @hpart v (hu.trans hv)).bind fun v hv _ _ => ?_
  have hv := hu.trans hv
  exact (strict_optional fun w hw => @hpart w (hv.trans hw)).bind fun w _ _ _ => .pure

theorem strict_type : Strict p (readType part) (canonicalOnly (readType part')) := by
  refine .bindOnly strict_kind fun q hq kind _ => .bindOnly strict_word fun r hr _ _ => ?_
  have hpart : ∀ (u : Pairing) [r.After u], Strict u part part' := fun u hu => @hpart u ((hq.trans hr).trans hu)
  cases kind with
  | any | nil | void => exact .only .pure
  | primitive => exact .bindOnly strict_primitive fun _ _ kind _ => .only .pure
  | literal =>
    exact .bindOnly strict_primitive fun _ _ _ _ => .bindOnly strict_symbol fun _ _ value _ => strict_form nofun
  | array =>
    have := refl r
    exact (hpart r).bindOnly fun _ _ _ _ => strict_form nofun
  | classRef => exact .bindOnly strict_symbol fun _ _ name _ => strict_form nofun
  | aliasRef =>
    refine .bindOnly strict_symbol fun u hu name _ => ?_
    refine (strict_list fun v hv => @hpart v (hu.trans hv)).bindOnly fun v hv _ _ => ?_
    exact (@hpart v (hu.trans hv)).bindOnly fun _ _ _ _ => @strict_form _ _ ⟨.aliasRef ..⟩ nofun
  | union => exact (strict_list hpart).bindOnly fun u _ _ _ => strict_unionOf
  | generic =>
    have := refl r
    refine (hpart r).bindOnly fun u hu _ _ => ?_
    exact (strict_list fun v hv => @hpart v (hu.trans hv)).bindOnly fun _ _ _ _ => strict_form nofun
  | function =>
    refine (strict_signature hpart).bindOnly fun u hu _ _ => ?_
    refine (strict_list fun v hv => strict_signature fun w hw => @hpart w ((hu.trans hv).trans hw)).bindOnly ?_
    exact fun _ _ _ _ => strict_form nofun
  | results =>
    refine .bindOnly strict_flag fun u hu _ _ => ?_
    exact (strict_list fun v hv => @hpart v (hu.trans hv)).bindOnly fun _ _ _ _ => strict_form nofun
  | param =>
    refine .bindOnly strict_symbol fun u hu _ _ => .bindOnly strict_symbol fun v hv _ _ => ?_
    exact (strict_optional fun w hw => @hpart w ((hu.trans hv).trans hw)).bindOnly fun _ _ _ _ => strict_form nofun
  | snippet => exact .bindOnly strict_symbol fun _ _ _ _ => @strict_form _ _ ⟨.snippet ..⟩ nofun

omit hpart

theorem strict_below (n : Nat) : Strict p (readBelow n) (readCanonicalBelow n) := by
  induction n generalizing p with
  | zero => exact .throw
  | succ n ih => exact strict_type fun _ _ => ih
end

/-! ## Whole inputs -/

theorem Safe.decodeBy {reader : Decoder Ty} (hr : Safe p reader) (bytes : List UInt8)
    (h : t.WF) [p.After h.self] : ∃ k : (decodeBy reader bytes t).2.WF,
    t.Extends (Codec.decodeBy reader bytes t).2 ∧ (t.Sorted → (Codec.decodeBy reader bytes t).2.Sorted) ∧
      ∀ ty, (Codec.decodeBy reader bytes t).1 = .ok ty → k.Stores ty := by
  unfold Codec.decodeBy
  rcases hrun : reader.run ⟨bytes, 0, t⟩ with ⟨e | ty, c⟩
  all_goals obtain ⟨k, hx, hsorted, hstored⟩ := hr ⟨bytes, 0, t⟩ h _ _ hrun
  · exact ⟨k, hx, hsorted, nofun⟩
  · refine ⟨k, hx, hsorted, fun a ha => ?_⟩
    dsimp only at ha
    split at ha <;> cases ha
    exact hstored ty rfl

theorem decode_stored (bytes : List UInt8) (h : t.WF) :
    ∃ k : (decode bytes t).2.WF, t.Extends (decode bytes t).2 ∧ ∀ ty, (decode bytes t).1 = .ok ty → k.Stores ty := by
  have hself := refl h.self
  obtain ⟨k, hx, -, hstored⟩ := (strict_below maxDepth).safe.decodeBy bytes h
  exact ⟨k, hx, hstored⟩

/-- Whatever the bytes, reading them leaves the unions that were stored as they were, and those that come new have two
or more members in order. All are in canonical form after a type was read exactly if it is also read where unions in
any other form are refused. -/
theorem decode_unions (bytes : List UInt8) {t : TypeTable} (h : t.WF) (hc : t.Canonical) :
    (∀ (ty : Ty) members, t.lookup ty = .union members → (decode bytes t).2.lookup ty = .union members ∧
        (decode bytes t).2.CanonicalMembers members) ∧
      (decode bytes t).2.Sorted ∧
      ∀ ty t', decodeCanonical bytes t = (.ok ty, t') ↔ decode bytes t = (.ok ty, t') ∧ t'.Canonical := by
  have hself := Pairing.After.refl h.self
  have hstrict := strict_below (p := h.self) maxDepth
  obtain ⟨k, hx, hsorted, -⟩ := hstrict.safe.decodeBy bytes h
  refine ⟨fun ty members hl => ?_, hsorted hc.sorted, fun ty t' => ?_⟩
  · refine ⟨(hx.lookup (TypeTable.has_of_union hl)).trans hl, ?_⟩
    exact (hc ty members hl).later hx h k (h.union_has hl)
  · rw [decodeCanonical, decode_eq, decodeBy_ok_iff, decodeBy_ok_iff, ← exists_and_right]
    exact exists_congr fun n => hstrict.exact ⟨bytes, 0, t⟩ h hc ty ⟨[], n, t'⟩

def unionBytes (members : List (List UInt8)) : List UInt8 :=
  byte Kind.union.tag ++ word Marks.none.toBits ++ list id members

def shuffledUnion : List UInt8 :=
  unionBytes ([Ty.string, Ty.number, Ty.nil, Ty.number].map (encode initial))

theorem decode_unions_shuffled : ∃ ty, (decode shuffledUnion TypeTable.initial).1 = .ok ty ∧
    (decode shuffledUnion TypeTable.initial).2.lookup ty = .union [Ty.nil, Ty.number, Ty.string] ∧
    (decode shuffledUnion TypeTable.initial).2.Canonical := by
  have hread : (decodeCanonical shuffledUnion TypeTable.initial).1 = .ok ⟨10⟩ ∧
      (decodeCanonical shuffledUnion TypeTable.initial).2.lookup ⟨10⟩ = .union [Ty.nil, Ty.number, Ty.string] := by
    decide +kernel
  obtain ⟨-, -, hiff⟩ := decode_unions shuffledUnion TypeTable.initial_wf TypeTable.initial_canonical
  rcases hrun : decodeCanonical shuffledUnion TypeTable.initial with ⟨r, t⟩
  rw [hrun] at hread
  obtain ⟨rfl, hl⟩ := hread
  obtain ⟨hdecode, hc⟩ := (hiff _ _).1 hrun
  rw [hdecode]
  exact ⟨⟨10⟩, rfl, hl, hc⟩

def nestedUnion : List UInt8 :=
  unionBytes [encode initial Ty.nil,
    unionBytes ([Ty.string, Ty.number].map (encode initial))]

/-- The members that are read are not flattened, so a union may become a member of another. -/
theorem decode_keeps_nesting : ∃ ty, (decode nestedUnion TypeTable.initial).1 = .ok ty ∧
    ¬ (decode nestedUnion TypeTable.initial).2.Canonical :=
  ⟨⟨11⟩, by decide +kernel⟩

end AnnotatedLua.Codec
