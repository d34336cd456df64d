/-
What is written of a type, which depends on its tree alone (`encode_of_tree`), and what readers do with it. `Reads` says
that a reader takes just the given bytes off the input and gives what they were written from.
-/
import AnnotatedLua.Type.Codec
import AnnotatedLua.Proofs.Pair.Tables

namespace AnnotatedLua

open FormOf

variable {t t' : TypeTable} {α β : Type} {c c' : Cursor}

namespace Codec

/-! ## Pieces -/

variable {item' : β → List UInt8} {item : α → List UInt8}

theorem list_congr {l : List α} {l' : List β} (e : l.map item = l'.map item') : list item l = list item' l' := by
  have hlen : l.length = l'.length := by simpa using congrArg List.length e
  unfold list
  rw [hlen, List.flatMap_def, List.flatMap_def, e]

theorem optional_congr {o : Option α} {o' : Option β}
    (e : o.map item = o'.map item') : optional item o = optional item' o' := by
  cases o <;> cases o' <;> simp_all [optional]

section
variable {part part' : Ty → List UInt8}

theorem parameter_congr {p p' : Parameter} (e : p.map t.text part = p'.map t'.text part') :
    parameter t part p = parameter t' part' p' := by
  simp only [ParameterOf.map, ParameterOf.mk.injEq] at e
  obtain ⟨hn, ht, ho⟩ := e
  unfold parameter symbol
  rw [hn, ho, optional_congr ht]

theorem signature_congr {s s' : Signature} (e : s.map t.text part = s'.map t'.text part') :
    signature t part s = signature t' part' s' := by
  simp only [SignatureOf.map, SignatureOf.mk.injEq] at e
  obtain ⟨hc, htp, hp, hv, hr⟩ := e
  have hparams : s.params.map (parameter t part) = s'.params.map (parameter t' part') :=
    map_eq_transfer hp fun p _ _ _ he => parameter_congr he
  unfold signature
  rw [hc, list_congr htp, list_congr hparams, optional_congr hv, optional_congr hr]

theorem payload_congr {form form' : Form} (e : form.map t.text part = form'.map t'.text part') :
    payload t part form = payload t' part' form' := by
  cases form <;> cases form' <;> simp only [map, reduceCtorEq] at e
  case any.any => rfl
  case nil.nil => rfl
  case void.void => rfl
  case primitive.primitive => cases e; rfl
  case literal.literal =>
    simp only [literal.injEq] at e
    simp only [payload, symbol, e.1, e.2]
  case array.array =>
    simp only [array.injEq] at e
    exact e
  case classRef.classRef =>
    simp only [classRef.injEq] at e
    simp only [payload, symbol, e.1]
  case aliasRef.aliasRef =>
    simp only [aliasRef.injEq] at e
    simp only [payload, symbol, e.1, e.2.2, list_congr e.2.1]
  case union.union =>
    simp only [union.injEq] at e
    exact list_congr e
  case generic.generic =>
    simp only [generic.injEq] at e
    simp only [payload, e.1, list_congr e.2]
  case function.function main overloads _ main' overloads' _ =>
    simp only [function.injEq] at e
    have hov : overloads.map (signature t part) = overloads'.map (signature t' part') :=
      map_eq_transfer e.2.1 fun s _ _ _ he => signature_congr he
    simp only [payload, signature_congr e.1, list_congr hov]
  case results.results =>
    simp only [results.injEq] at e
    simp only [payload, e.2, list_congr e.1]
  case param.param =>
    simp only [param.injEq] at e
    simp only [payload, symbol, e.1, e.2.1, optional_congr e.2.2]
  case snippet.snippet =>
    simp only [snippet.injEq] at e
    simp only [payload, symbol, e]
end

/-! ## Types -/

def header (form : Form) : List UInt8 := byte form.kind.tag ++ word form.marks.toBits

end Codec

namespace TypeTable

open Codec

theorem Grounded.encode_eq (h : t.Grounded) (ty : Ty) :
    encode t ty = header (t.lookup ty) ++ payload t (encode t) (t.lookup ty) := by
  refine h.walk_eq (fun g form => header form ++ payload t g form) (fun g _ form hg => ?_)
    (encodeBelow t) (fun _ _ => rfl) ty
  exact congrArg (header form ++ ·)
    (payload_congr (map_congr (fun _ _ => rfl) fun p hp => hg p (mem_reads hp)))

theorem encode_of_tree (h : t.Grounded) (h' : t'.Grounded) {ty ty' : Ty}
    (e : t.tree ty = t'.tree ty') : encode t ty = encode t' ty' := by
  have main : ∀ n (ty ty' : Ty), ty.index < n → t.tree ty = t'.tree ty' → encode t ty = encode t' ty' := by
    intro n
    induction n with
    | zero => intro ty ty' hn; omega
    | succ n ih =>
      intro ty ty' _ e
      have hf := form_of_tree h h' e
      have hhead : header (t.lookup ty) = header (t'.lookup ty') := by
        have hk := congrArg FormOf.kind hf
        have hm := congrArg FormOf.marks hf
        simp only [FormOf.kind_map, FormOf.marks_map] at hk hm
        unfold header
        rw [hk, hm]
      rw [h.encode_eq, h'.encode_eq, hhead]
      refine congrArg (header (t'.lookup ty') ++ ·)
        (payload_congr (FormOf.map_transfer hf (fun _ _ _ _ hs => hs) fun p hp q _ hpq => ?_))
      have := (h.part_lt hp).1
      exact ih p q (by omega) hpq
  exact main _ ty ty' (Nat.lt_succ_self _) e

end TypeTable

namespace Codec

open TypeTable List Pairing

instance : Value UInt8 := .discrete _
instance : Discrete UInt8 := ⟨Iff.rfl⟩

variable {I : TypeTable} {reader : Decoder α} {next : α → Decoder β} {bytes bytes' : List UInt8}

/-! ## Readers -/

theorem run_bindCont {r : Except DecodeError α} (h : reader.run c = (r, c')) :
    (reader >>= next).run c = ExceptT.bindCont next r c' := by
  have h' : (reader : StateM Cursor (Except DecodeError α)) c = (r, c') := h
  show StateT.bind reader (ExceptT.bindCont next) c = _
  unfold StateT.bind
  show (match (reader : StateM Cursor (Except DecodeError α)) c with
    | (r, c') => ExceptT.bindCont next r c') = _
  rw [h']

theorem run_bind {a : α} (h : reader.run c = (.ok a, c')) :
    (reader >>= next).run c = (next a).run c' := run_bindCont h

variable [Value α] [Value β]

/-- The reader takes these bytes off the input, whatever comes after them, and gives what stands for `a`, which is of the
table `I`. A table that held everything before stays as it is. -/
def Reads (hI : I.WF) (p : Pairing) (reader : Decoder α) (bytes : List UInt8) (a : α) : Prop :=
  ∀ (J : TypeTable) (hJ : J.WF) [p.After (pairing hI hJ)] rest offset, ∃ a' J', ∃ k : J'.WF,
    reader.run ⟨bytes ++ rest, offset, J⟩ = (.ok a', ⟨rest, offset + bytes.length, J'⟩) ∧ J.Extends J' ∧
    (I.Extends J → J'.forms = J.forms ∧ J'.symbols = J.symbols) ∧ Same (pairing hI k) a a'

variable {hI : I.WF} {p : Pairing} {a : α} {b : β}

namespace Reads

theorem pure {a' : α} [Same p a a'] : Reads hI p (Pure.pure a') [] a :=
  fun J hJ _ _ _ => ⟨a', J, hJ, rfl, .refl J, fun _ => ⟨rfl, rfl⟩, inferInstance⟩

theorem of_run [Same p a a] (h : ∀ J rest offset, reader.run ⟨bytes ++ rest, offset, J⟩ =
    (.ok a, ⟨rest, offset + bytes.length, J⟩)) : Reads hI p reader bytes a :=
  fun J hJ _ rest offset => ⟨a, J, hJ, h J rest offset, .refl J, fun _ => ⟨rfl, rfl⟩, inferInstance⟩

theorem bind (h : Reads hI p reader bytes a)
    (hn : ∀ (q : Pairing) [p.After q] (a' : α) [Same q a a'], Reads hI q (next a') bytes' b) :
    Reads hI p (reader >>= next) (bytes ++ bytes') b := by
  intro J hJ hp rest offset
  obtain ⟨a', J', k, hrun, hx, hkept, _⟩ := h J hJ (bytes' ++ rest) offset
  have : p.After (pairing hI k) := hp.trans (pairing_after (.refl I) hx)
  have hnext := hn (pairing hI k) a'
  have := After.refl (pairing hI k)
  obtain ⟨b', J'', k', hrun', hx', hkept', hb⟩ := hnext J' k rest (offset + bytes.length)
  refine ⟨b', J'', k', ?_, hx.trans hx', fun hIJ => ?_, hb⟩
  · rw [append_assoc, run_bind hrun, hrun', length_append, Nat.add_assoc]
  · obtain ⟨hf, hs⟩ := hkept hIJ
    obtain ⟨hf', hs'⟩ := hkept' (hIJ.trans hx)
    exact ⟨hf'.trans hf, hs'.trans hs⟩

theorem bindLast (h : Reads hI p reader bytes a)
    (hn : ∀ (q : Pairing) [p.After q] (a' : α) [Same q a a'], Reads hI q (next a') [] b) :
    Reads hI p (reader >>= next) bytes b := by
  simpa using h.bind hn

theorem bindEq [Discrete α] (h : Reads hI p reader bytes a)
    (hn : ∀ (q : Pairing) [p.After q], Reads hI q (next a) bytes' b) :
    Reads hI p (reader >>= next) (bytes ++ bytes') b :=
  h.bind fun q _ _ ha => ha.eq ▸ hn q

end Reads

/-! ## Numbers -/

theorem run_take (bytes : List UInt8) (J : TypeTable) (rest : List UInt8) (offset : Nat) :
    (take bytes.length).run ⟨bytes ++ rest, offset, J⟩ = (.ok bytes, ⟨rest, offset + bytes.length, J⟩) := by
  have hle : bytes.length ≤ (bytes ++ rest).length := by simp
  have hrun : (take bytes.length).run ⟨bytes ++ rest, offset, J⟩ =
      (if bytes.length ≤ (bytes ++ rest).length then
        (do set (⟨(bytes ++ rest).drop bytes.length, offset + bytes.length, J⟩ : Cursor)
            return (bytes ++ rest).take bytes.length : Decoder (List UInt8))
       else throw (.truncated offset)).run ⟨bytes ++ rest, offset, J⟩ := rfl
  rw [hrun, if_pos hle]
  simp only [drop_left, take_left]
  rfl

variable {n : Nat}

theorem ofBytes_byte (h : n < 2 ^ 8) : ofBytes (byte n) = n := by
  simp only [ofBytes, byte, foldr_cons, foldr_nil, Nat.toUInt8, UInt8.toNat_ofNat']
  omega

theorem ofBytes_word (h : n < 2 ^ 32) : ofBytes (word n) = n := by
  simp only [ofBytes, word, foldr_cons, foldr_nil, Nat.toUInt8, UInt8.toNat_ofNat']
  omega

theorem run_byte (h : n < 2 ^ 8) (J : TypeTable) (rest : List UInt8) (offset : Nat) :
    readByte.run ⟨byte n ++ rest, offset, J⟩ = (.ok n, ⟨rest, offset + (byte n).length, J⟩) := by
  refine (run_bind (run_take (byte n) J rest offset)).trans ?_
  rw [ofBytes_byte h]
  rfl

theorem run_word (h : n < 2 ^ 32) (J : TypeTable) (rest : List UInt8) (offset : Nat) :
    readWord.run ⟨word n ++ rest, offset, J⟩ = (.ok n, ⟨rest, offset + (word n).length, J⟩) := by
  refine (run_bind (run_take (word n) J rest offset)).trans ?_
  rw [ofBytes_word h]
  rfl

theorem reads_word (h : n < 2 ^ 32) : Reads hI p readWord (word n) n := .of_run (run_word h)

theorem Reads.length {next : Nat → Decoder β} (h : n < 2 ^ 32) (hle : n ≤ bytes.length)
    (hn : Reads hI p (next n) bytes b) : Reads hI p (readLength >>= next) (length n ++ bytes) b := by
  intro J hJ _ rest offset
  have hlength : readLength.run ⟨Codec.length n ++ (bytes ++ rest), offset, J⟩ =
      (.ok n, ⟨bytes ++ rest, offset + (Codec.length n).length, J⟩) := by
    unfold Codec.length
    rw [Nat.min_eq_left (by omega)]
    refine (run_bind rfl).trans ((run_bind (run_word h J _ offset)).trans ((run_bind rfl).trans ?_))
    rw [if_pos (by simp; omega)]
    rfl
  obtain ⟨b', J', k, hrun, hstep⟩ := hn J hJ rest (offset + (Codec.length n).length)
  refine ⟨b', J', k, ?_, hstep⟩
  rw [append_assoc, run_bind hlength, hrun, length_append, Nat.add_assoc]

/-! ## Tags -/

theorem reads_tag [Discrete α] {next : Nat → Nat → Decoder α} (h : n < 2 ^ 8)
    (hr : reader = do let start ← offset; let tag ← readByte; next start tag)
    (hn : ∀ start, next start n = pure a) : Reads hI p reader (byte n) a := by
  subst hr
  refine .of_run fun J rest offset => (run_bind rfl).trans ((run_bind (run_byte h J rest offset)).trans ?_)
  rw [hn]
  rfl

theorem reads_flag (b : Bool) : Reads hI p readFlag (flag b) b := by
  refine reads_tag ?_ rfl ?_
  · cases b <;> decide
  · cases b <;> exact fun _ => rfl

theorem reads_primitive (kind : Primitive) : Reads hI p readPrimitive (byte kind.tag) kind := by
  refine reads_tag ?_ rfl ?_
  · cases kind <;> decide
  · cases kind <;> exact fun _ => rfl

theorem reads_kind (k : Kind) : Reads hI p readKind (byte k.tag) k := by
  refine reads_tag ?_ rfl ?_
  · cases k <;> decide
  · cases k <;> exact fun _ => rfl

theorem ofBits_toBits (m : Marks) : Marks.ofBits m.toBits = m := by
  obtain ⟨a, b, c, d, e, f⟩ := m
  cases a <;> cases b <;> cases c <;> cases d <;> cases e <;> cases f <;> rfl

theorem toBits_lt (m : Marks) : m.toBits < 2 ^ 32 := by
  have h (b : Bool) : b.toNat ≤ 1 := Bool.toNat_le b
  have := h m.anonymous; have := h m.global; have := h m.method
  have := h m.literalTable; have := h m.structural; have := h m.unresolved
  unfold Marks.toBits
  omega

/-! ## Lists, options and texts -/

section
variable {item : α → List UInt8}

theorem reads_times {l : List α} (h : ∀ a ∈ l, ∀ q, Reads hI q reader (item a) a) :
    Reads hI p (readTimes reader l.length) (l.flatMap item) l := by
  induction l generalizing p with
  | nil => exact .pure
  | cons a l ih =>
    exact (h a (by simp) p).bind fun q _ b _ => (ih fun a ha => h a (by simp [ha])).bindLast fun r _ bs _ => .pure

theorem reads_list {l : List α} (hlen : l.length < 2 ^ 32) (hpos : ∀ a ∈ l, item a ≠ [])
    (h : ∀ a ∈ l, ∀ q, Reads hI q reader (item a) a) : Reads hI p (readList reader) (list item l) l := by
  refine Reads.length hlen ?_ (reads_times h)
  clear h hlen
  induction l with
  | nil => simp
  | cons a l ih =>
    have ha := length_pos_of_ne_nil (hpos a (by simp))
    have := ih fun b hb => hpos b (by simp [hb])
    simp only [flatMap_cons, length_append, length_cons]
    omega

theorem reads_optional {o : Option α} (h : ∀ a ∈ o, ∀ q, Reads hI q reader (item a) a) :
    Reads hI p (readOptional reader) (optional item o) o := by
  cases o with
  | none => exact (reads_flag false).bindLast fun q _ b hb => hb.eq ▸ .pure
  | some a => exact (reads_flag true).bindEq fun q _ => (h a rfl q).bindLast fun r _ b _ => .pure
end

theorem fromUTF8?_bytes (x : String) : String.fromUTF8? ⟨x.toUTF8.data.toList.toArray⟩ = some x := by
  unfold String.fromUTF8?
  have h : (⟨x.toUTF8.data.toList.toArray⟩ : ByteArray) = x.toUTF8 := rfl
  rw [h]
  exact dif_pos x.isValidUTF8

theorem reads_symbol {s : Symbol} (hs : I.HasSymbol s) (hlen : (I.text s).utf8ByteSize < 2 ^ 32) :
    Reads hI p readSymbol (symbol I s) s := by
  have hsize : (I.text s).toUTF8.data.toList.length = (I.text s).utf8ByteSize := rfl
  refine Reads.length (by rw [hsize]; exact hlen) (le_refl _) fun J hJ _ rest offset => ?_
  refine ⟨(J.internText (I.text s)).1, (J.internText (I.text s)).2, hJ.internText _, ?_, internText_extends J _,
    fun hx => ?_, ?_⟩
  · refine (run_bind rfl).trans ((run_bind (run_take _ J rest offset)).trans ?_)
    rw [fromUTF8?_bytes]
    rfl
  · have h := hJ.internText_of_stored (hx.hasSymbol hs)
    rw [hx.text hs] at h
    rw [h]
    exact ⟨rfl, rfl⟩
  · obtain ⟨h1, h2⟩ := internText_text J (I.text s)
    exact sameSymbol_iff.2 ⟨hs, h1, h2.symm⟩

end Codec

end AnnotatedLua
