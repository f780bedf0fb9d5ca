import AnnotatedWasm.Proofs.Wasm.Reading

/-!
The entries of sections are read back as they were written.

There is a lemma for each kind of type and entry, and one for instructions along their structure.
`numbers` are the indices and other numbers of a part apart from lengths, which are bounded by the
length of the file.
-/

namespace AnnotatedWasm.Wasm

open Reader

variable {w : Limit}

/-! ### Types -/

def ValType.numbers : ValType → List Nat
  | num _ => []
  | ref i => [i]

/-- A value type starts with a byte that is not the empty type of a construct. -/
lemma ValType.starts (t : ValType) (h : ∀ n ∈ t.numbers, w.Holds n) :
    ∃ c cs, t.bytes = c :: cs ∧ c ≠ 0x40 ∧ Reads (valTypeFrom w c) cs t := by
  cases t with
  | num k => rcases k with ⟨_ | _⟩ | ⟨_ | _⟩ <;> exact ⟨_, _, rfl, by decide, fun _ => rfl⟩
  | ref i =>
    refine ⟨0x63, sleb i, rfl, by decide, ?_⟩
    have hindex : w.withSign.HoldsSigned (i : Int) := (h i (List.mem_singleton_self i)).withSign
    have hread := (reads_signed hindex).bind (f := fun n => do
      guard (0 ≤ n)
      return ValType.ref n.toNat) (.guarded (Int.natCast_nonneg i) (.pure _))
    rwa [List.append_nil] at hread

lemma ValType.bytes_pos (t : ValType) : 0 < t.bytes.length := by
  cases t <;> simp [bytes]

lemma reads_valType {t : ValType} (h : ∀ n ∈ t.numbers, w.Holds n) :
    Reads (valType w) t.bytes t := by
  obtain ⟨c, cs, hbytes, -, hread⟩ := t.starts h
  rw [hbytes]
  exact reads_byte_bind hread

lemma reads_storage (s : Storage) : Reads storage [s.byteCode] s := by
  cases s with
  | num k => rcases k with ⟨_ | _⟩ | ⟨_ | _⟩ <;> exact fun _ => rfl
  | byte => exact fun _ => rfl

def TypeDef.numbers : TypeDef → List Nat
  | array _ => []
  | func ps rs => (ps ++ rs).flatMap ValType.numbers

lemma TypeDef.bytes_pos (t : TypeDef) : 0 < t.bytes.length := by
  cases t <;> simp [bytes]

lemma reads_typeDef {t : TypeDef} (hroom : w.Holds t.bytes.length)
    (h : ∀ n ∈ t.numbers, w.Holds n) : Reads (typeDef w) t.bytes t := by
  cases t with
  | array s =>
    have hrest : Reads (do
        let s ← storage
        expect 0x01
        return TypeDef.array s) ([s.byteCode] ++ [0x01]) (.array s) :=
      (reads_storage s).bind (reads_expect_bind (.pure _))
    exact reads_byte_bind hrest
  | func ps rs =>
    have hlength : (TypeDef.func ps rs).bytes.length =
        (vector ValType.bytes ps).length + (vector ValType.bytes rs).length + 1 := by
      simp [TypeDef.bytes]
    have hread : ∀ ts : List ValType, (∀ t ∈ ts, t ∈ ps ++ rs) →
        w.Holds (vector ValType.bytes ts).length →
        Reads (counted w (valType w)) (vector ValType.bytes ts) ts := by
      intro ts hts hlen
      refine reads_counted hlen (fun t _ => t.bytes_pos) fun t ht _ => reads_valType fun n hn => ?_
      exact h n (List.mem_flatMap.mpr ⟨t, hts t ht, hn⟩)
    have hps := hread ps (fun t ht => List.mem_append_left _ ht) (hroom.mono (by omega))
    have hrs := hread rs (fun t ht => List.mem_append_right _ ht) (hroom.mono (by omega))
    have hrest : Reads (do return TypeDef.func (← counted w (valType w)) (← counted w (valType w)))
        (vector ValType.bytes ps ++ vector ValType.bytes rs) (.func ps rs) :=
      hps.bind hrs.map
    exact reads_byte_bind hrest

def blockNumbers : Option ValType → List Nat
  | none => []
  | some t => t.numbers

lemma reads_blockType {t : Option ValType} (h : ∀ n ∈ blockNumbers t, w.Holds n) :
    Reads (blockType w) (blockTypeBytes t) t := by
  cases t with
  | none => exact fun _ => rfl
  | some t =>
    obtain ⟨c, cs, hbytes, hc, hread⟩ := t.starts h
    have hrest : Reads (do return some (← valTypeFrom w c)) cs (some t) := hread.map
    rw [blockTypeBytes, hbytes, blockType]
    refine reads_byte_bind ?_
    split
    · exact absurd rfl hc
    · exact hrest

/-! ### Instructions -/

namespace Instr

mutual

/-- The indices and sizes in an instruction. -/
def numbers : Instr → List Nat
  | localGet i | localSet i | globalGet i | globalSet i | br i | brIf i | call i => [i]
  | arrayNew t | arrayGet t | arraySet t => [t]
  | arrayNewFixed t n => [t, n]
  | arrayNewData t s => [t, s]
  | selectTyped t => t.numbers
  | block t body => blockNumbers t ++ numbersAll body
  | loop body | ifThen body => numbersAll body
  | ifElse a b => numbersAll a ++ numbersAll b
  | nop | unreachable | const _ | unary _ | binary _ | select | ret | drop | arrayLen => []

def numbersAll : List Instr → List Nat
  | [] => []
  | i :: is => numbers i ++ numbersAll is

end

end Instr

/-- The instruction is read after its first byte, which does not close a construct. -/
def Starts (w : Limit) (fuel : Nat) (i : Instr) : Prop :=
  ∃ c cs, i.bytes = c :: cs ∧ c ≠ 0x0b ∧ c ≠ 0x05 ∧ Reads (instr w (instrs w fuel) c) cs i

lemma holdsSigned_toInt {n : Nat} (v : BitVec n) : Limit.HoldsSigned (some n) v.toInt :=
  ⟨v.le_toInt, v.toInt_lt⟩

lemma starts_const (fuel : Nat) (v : Literal) : Starts w fuel (.const v) := by
  rcases v with ⟨_ | _, v⟩ | ⟨_ | _, b⟩
  · have hread : Reads (do return Instr.const (.i32 (← signed (some 32)))) (sleb v.toInt)
        (.const (.i32 v.toInt)) := (reads_signed (holdsSigned_toInt v)).map
    have hv : Literal.i32 v.toInt = .int .w32 v := congrArg (Literal.int .w32) v.ofInt_toInt
    rw [hv] at hread
    exact ⟨0x41, _, rfl, by decide, by decide, hread⟩
  · have hread : Reads (do return Instr.const (.i64 (← signed (some 64)))) (sleb v.toInt)
        (.const (.i64 v.toInt)) := (reads_signed (holdsSigned_toInt v)).map
    have hv : Literal.i64 v.toInt = .int .w64 v := congrArg (Literal.int .w64) v.ofInt_toInt
    rw [hv] at hread
    exact ⟨0x42, _, rfl, by decide, by decide, hread⟩
  · have hread : Reads (do return Instr.const (.float .w32 (.ofNat _ (← fixed 4))))
        (littleEndian 4 b.toNat) (.const (.float .w32 (.ofNat _ b.toNat))) :=
      (reads_fixed 4 b.isLt).map
    rw [BitVec.ofNat_toNat, BitVec.setWidth_eq] at hread
    exact ⟨0x43, _, rfl, by decide, by decide, hread⟩
  · have hread : Reads (do return Instr.const (.float .w64 (.ofNat _ (← fixed 8))))
        (littleEndian 8 b.toNat) (.const (.float .w64 (.ofNat _ b.toNat))) :=
      (reads_fixed 8 b.isLt).map
    rw [BitVec.ofNat_toNat, BitVec.setWidth_eq] at hread
    exact ⟨0x44, _, rfl, by decide, by decide, hread⟩

lemma starts_unary (fuel : Nat) (op : Ir.UnaryOp) : Starts w fuel (.unary op) := by
  rcases op with _ | _ | ⟨_ | _, _ | _⟩ | ⟨_ | _, _ | _⟩ | _ | _ | ⟨_ | _⟩ | ⟨_ | _⟩ | _
  all_goals exact ⟨_, _, rfl, by decide, by decide, fun _ => rfl⟩

lemma starts_binary (fuel : Nat) (op : Ir.BinaryOp) : Starts w fuel (.binary op) := by
  rcases op with ⟨op, ⟨_ | _⟩ | ⟨_ | _⟩⟩ | ⟨_ | _⟩ | ⟨op, ⟨_ | _⟩ | ⟨_ | _⟩⟩
  all_goals try cases op
  all_goals exact ⟨_, _, rfl, by decide, by decide, fun _ => rfl⟩

/-- Instructions on arrays have a code of their own after the first byte. -/
lemma starts_array {fuel : Nat} {i : Instr} {c : UInt8} {cs : List UInt8} (k : Nat)
    (hc : Reads (unsigned (some 32)) [c] k) (hbytes : i.bytes = 0xfb :: c :: cs)
    (h : Reads (arrayInstr w k) cs i) : Starts w fuel i :=
  ⟨0xfb, c :: cs, hbytes, by decide, by decide, hc.bind (f := arrayInstr w) h⟩

lemma reads_closed {body : Reader (List Instr × Bool)} {cs : List UInt8} {is : List Instr}
    (h : Reads body cs (is, false)) : Reads (closed body) cs is := by
  have hread : Reads (closed body) (cs ++ []) is := h.bind (.guarded rfl (.pure is))
  rwa [List.append_nil] at hread

/-- The byte that closes instructions. -/
def closing (isElse : Bool) : UInt8 := if isElse then 0x05 else 0x0b

mutual

/-- An instruction is read with room for the instructions inside of it. -/
lemma instr_starts : (i : Instr) → ∀ {fuel}, i.bytes.length ≤ fuel →
    (∀ n ∈ i.numbers, w.Holds n) → Starts w fuel i
  | .nop, _, _, _ => ⟨0x01, [], rfl, by decide, by decide, fun _ => rfl⟩
  | .unreachable, _, _, _ => ⟨0x00, [], rfl, by decide, by decide, fun _ => rfl⟩
  | .select, _, _, _ => ⟨0x1b, [], rfl, by decide, by decide, fun _ => rfl⟩
  | .ret, _, _, _ => ⟨0x0f, [], rfl, by decide, by decide, fun _ => rfl⟩
  | .drop, _, _, _ => ⟨0x1a, [], rfl, by decide, by decide, fun _ => rfl⟩
  | .arrayLen, _, _, _ => ⟨0xfb, [0x0f], rfl, by decide, by decide, fun _ => rfl⟩
  | .const v, fuel, _, _ => starts_const fuel v
  | .unary op, fuel, _, _ => starts_unary fuel op
  | .binary op, fuel, _, _ => starts_binary fuel op
  | .localGet i, _, _, h => by
    refine ⟨0x20, uleb i, rfl, by decide, by decide, ?_⟩
    exact (reads_unsigned (h i (by simp [Instr.numbers]))).map (g := Instr.localGet)
  | .localSet i, _, _, h => by
    refine ⟨0x21, uleb i, rfl, by decide, by decide, ?_⟩
    exact (reads_unsigned (h i (by simp [Instr.numbers]))).map (g := Instr.localSet)
  | .globalGet i, _, _, h => by
    refine ⟨0x23, uleb i, rfl, by decide, by decide, ?_⟩
    exact (reads_unsigned (h i (by simp [Instr.numbers]))).map (g := Instr.globalGet)
  | .globalSet i, _, _, h => by
    refine ⟨0x24, uleb i, rfl, by decide, by decide, ?_⟩
    exact (reads_unsigned (h i (by simp [Instr.numbers]))).map (g := Instr.globalSet)
  | .br d, _, _, h => by
    refine ⟨0x0c, uleb d, rfl, by decide, by decide, ?_⟩
    exact (reads_unsigned (h d (by simp [Instr.numbers]))).map (g := Instr.br)
  | .brIf d, _, _, h => by
    refine ⟨0x0d, uleb d, rfl, by decide, by decide, ?_⟩
    exact (reads_unsigned (h d (by simp [Instr.numbers]))).map (g := Instr.brIf)
  | .call f, _, _, h => by
    refine ⟨0x10, uleb f, rfl, by decide, by decide, ?_⟩
    exact (reads_unsigned (h f (by simp [Instr.numbers]))).map (g := Instr.call)
  | .selectTyped t, _, _, h => by
    refine ⟨0x1c, 0x01 :: t.bytes, rfl, by decide, by decide, ?_⟩
    exact reads_expect_bind ((reads_valType h).map (g := Instr.selectTyped))
  | .arrayNew t, _, _, h =>
    starts_array 6 (fun _ => rfl) rfl
      ((reads_unsigned (h t (by simp [Instr.numbers]))).map (g := Instr.arrayNew))
  | .arrayGet t, _, _, h =>
    starts_array 11 (fun _ => rfl) rfl
      ((reads_unsigned (h t (by simp [Instr.numbers]))).map (g := Instr.arrayGet))
  | .arraySet t, _, _, h =>
    starts_array 14 (fun _ => rfl) rfl
      ((reads_unsigned (h t (by simp [Instr.numbers]))).map (g := Instr.arraySet))
  | .arrayNewFixed t n, _, _, h =>
    starts_array 8 (fun _ => rfl) rfl ((reads_unsigned (h t (by simp [Instr.numbers]))).bind
      ((reads_unsigned (h n (by simp [Instr.numbers]))).map (g := Instr.arrayNewFixed t)))
  | .arrayNewData t s, _, _, h =>
    starts_array 9 (fun _ => rfl) rfl ((reads_unsigned (h t (by simp [Instr.numbers]))).bind
      ((reads_unsigned (h s (by simp [Instr.numbers]))).map (g := Instr.arrayNewData t)))
  | .block t body, fuel, hfuel, h => by
    simp only [Instr.numbers, List.forall_mem_append] at h
    have hlen : (Instr.bytesAll body).length < fuel := by
      simp only [Instr.bytes, List.length_append, List.length_cons] at hfuel
      omega
    refine ⟨0x02, blockTypeBytes t ++ (Instr.bytesAll body ++ [0x0b]), ?_, by decide, by decide, ?_⟩
    · rw [Instr.bytes, List.append_assoc]
      rfl
    · exact (reads_blockType h.1).bind
        ((reads_closed (instrs_read body hlen h.2 false)).map (g := Instr.block t))
  | .loop body, fuel, hfuel, h => by
    have hlen : (Instr.bytesAll body).length < fuel := by
      simp only [Instr.bytes, List.length_append, List.length_cons] at hfuel
      omega
    refine ⟨0x03, 0x40 :: (Instr.bytesAll body ++ [0x0b]), rfl, by decide, by decide, ?_⟩
    exact reads_expect_bind ((reads_closed (instrs_read body hlen h false)).map (g := Instr.loop))
  | .ifThen body, fuel, hfuel, h => by
    have hlen : (Instr.bytesAll body).length < fuel := by
      simp only [Instr.bytes, List.length_append, List.length_cons] at hfuel
      omega
    refine ⟨0x04, 0x40 :: (Instr.bytesAll body ++ [0x0b]), rfl, by decide, by decide, ?_⟩
    have hread := (instrs_read body hlen h false).bind (f := conditional (instrs w fuel)) (.pure _)
    rw [List.append_nil] at hread
    exact reads_expect_bind hread
  | .ifElse a b, fuel, hfuel, h => by
    simp only [Instr.numbers, List.forall_mem_append] at h
    have hlen : (Instr.bytesAll a).length < fuel ∧ (Instr.bytesAll b).length < fuel := by
      simp only [Instr.bytes, List.length_append, List.length_cons] at hfuel
      omega
    have hread := (instrs_read a hlen.1 h.1 true).bind (f := conditional (instrs w fuel))
      ((reads_closed (instrs_read b hlen.2 h.2 false)).map (g := Instr.ifElse a))
    refine ⟨0x04, 0x40 :: (Instr.bytesAll a ++ [0x05] ++ (Instr.bytesAll b ++ [0x0b])), ?_,
      by decide, by decide, reads_expect_bind hread⟩
    rw [Instr.bytes, List.append_assoc _ (Instr.bytesAll b)]
    rfl

lemma instrs_read : (is : List Instr) → ∀ {fuel}, (Instr.bytesAll is).length < fuel →
    (∀ n ∈ Instr.numbersAll is, w.Holds n) → ∀ isElse,
      Reads (instrs w fuel) (Instr.bytesAll is ++ [closing isElse]) (is, isElse)
  | _, 0, hfuel, _, _ => absurd hfuel (Nat.not_lt_zero _)
  | [], fuel + 1, _, _, isElse => by
    cases isElse <;> exact fun _ => rfl
  | i :: is, fuel + 1, hfuel, h, isElse => by
    simp only [Instr.numbersAll, List.forall_mem_append] at h
    simp only [Instr.bytesAll, List.length_append] at hfuel
    have hfirst : i.bytes.length ≤ fuel := by omega
    obtain ⟨c, cs, hbytes, hend, helse, hi⟩ := instr_starts i hfirst h.1
    rw [hbytes, List.length_cons] at hfuel
    have hrest : (Instr.bytesAll is).length < fuel := by omega
    have his := instrs_read is hrest h.2 isElse
    rw [Instr.bytesAll, hbytes, List.append_assoc, List.cons_append, instrs]
    refine reads_byte_bind ?_
    split
    · exact absurd rfl hend
    · exact absurd rfl helse
    · exact hi.bind (his.map (g := fun p => (i :: p.1, p.2)))

end

lemma reads_expr {is : List Instr} (h : ∀ n ∈ Instr.numbersAll is, w.Holds n) :
    Reads (expr w) (Instr.bytesAll is ++ [0x0b]) is := by
  intro rest
  have hfuel : (Instr.bytesAll is).length < (Instr.bytesAll is ++ [0x0b] ++ rest).length := by
    simp only [List.length_append, List.length_singleton]
    omega
  exact reads_closed (instrs_read is hfuel h false) rest

/-! ### Entries of sections -/

lemma kind?_kindByte (k : NumKind) : kind? (kindByte k) = some k := by
  rcases k with ⟨_ | _⟩ | ⟨_ | _⟩ <;> rfl

lemma isMutable?_byte (b : Bool) : isMutable? (if b then 0x01 else 0x00) = some b := by
  cases b <;> rfl

lemma exportKind?_byte (k : ExportKind) : exportKind? k.byte = some k := by
  cases k <;> rfl

lemma reads_global (g : Global) : Reads (global w) g.bytes g := by
  have hexpr : Reads (expr w) (constBytes g.init ++ [0x0b]) [.const g.init] := by
    have hread : Reads (expr w) (Instr.bytesAll [.const g.init] ++ [0x0b]) [.const g.init] :=
      reads_expr (by simp [Instr.numbersAll, Instr.numbers])
    rwa [Instr.bytesAll, Instr.bytesAll, List.append_nil, Instr.bytes] at hread
  rw [Global.bytes, List.append_assoc]
  refine reads_byte_bind (.lift (kind?_kindByte g.kind)
    (reads_byte_bind (.lift (isMutable?_byte g.isMutable) ?_)))
  rw [← List.append_nil (constBytes g.init ++ [0x0b])]
  exact hexpr.bind (.pure _)

lemma Global.bytes_pos (g : Global) : 0 < g.bytes.length := by
  simp [bytes]

lemma nameBytes_pos (s : String) : 0 < (nameBytes s).length := by
  rw [nameBytes, sized, List.length_append]
  exact Nat.add_pos_left (uleb_pos _) _

lemma reads_exportEntry {e : Export} (hroom : w.Holds e.bytes.length) (hindex : w.Holds e.index) :
    Reads (exportEntry w) e.bytes e := by
  have hname : w.Holds (nameBytes e.name).length := by
    refine hroom.mono ?_
    rw [Export.bytes, List.length_append]
    exact Nat.le_add_right _ _
  have hlast : Reads (do return (⟨e.name, e.kind, ← unsigned w⟩ : Export)) (uleb e.index) e :=
    (reads_unsigned hindex).map (g := fun index => (⟨e.name, e.kind, index⟩ : Export))
  exact (reads_text hname).bind (reads_byte_bind (.lift (exportKind?_byte e.kind) hlast))

lemma Export.bytes_pos (e : Export) : 0 < e.bytes.length := by
  rw [bytes, List.length_append]
  exact Nat.add_pos_left (nameBytes_pos _) _

lemma reads_localRun {run : Nat × ValType} (h : ∀ n ∈ run.1 :: run.2.numbers, w.Holds n) :
    Reads (localRun w) (localsBytes run) run := by
  obtain ⟨hcount, htype⟩ := List.forall_mem_cons.mp h
  exact (reads_unsigned hcount).bind ((reads_valType htype).map (g := fun t => (run.1, t)))

lemma localsBytes_pos (run : Nat × ValType) : 0 < (localsBytes run).length := by
  rw [localsBytes, List.length_append]
  exact Nat.add_pos_left (uleb_pos _) _

def Code.numbers (c : Code) : List Nat :=
  c.locals.flatMap (fun run => run.1 :: run.2.numbers) ++ Instr.numbersAll c.body

lemma reads_code {c : Code} (hroom : w.Holds c.bytes.length) (h : ∀ n ∈ c.numbers, w.Holds n) :
    Reads (code w) c.bytes c := by
  obtain ⟨hlocals, hbody⟩ := List.forall_mem_append.mp h
  rw [Code.bytes] at hroom ⊢
  refine reads_boxed hroom fun hlen => ?_
  have hvector : w.Holds (vector localsBytes c.locals).length := by
    refine hlen.mono ?_
    rw [List.append_assoc, List.length_append]
    exact Nat.le_add_right _ _
  have hruns : Reads (counted w (localRun w)) (vector localsBytes c.locals) c.locals :=
    reads_counted hvector (fun run _ => localsBytes_pos run) fun run hrun _ =>
      reads_localRun fun n hn => hlocals n (List.mem_flatMap.mpr ⟨run, hrun, hn⟩)
  rw [List.append_assoc]
  exact hruns.bind ((reads_expr hbody).map (g := fun body => (⟨c.locals, body⟩ : Code)))

lemma sized_pos (cs : List UInt8) : 0 < (sized cs).length := by
  rw [sized, List.length_append]
  exact Nat.add_pos_left (uleb_pos _) _

lemma reads_segment {cs : List UInt8} (hroom : w.Holds (segmentBytes cs).length) :
    Reads (segment w) (segmentBytes cs) cs := by
  have hsized : w.Holds (sized cs).length := by
    refine hroom.mono ?_
    rw [segmentBytes, List.length_cons]
    exact Nat.le_succ _
  exact reads_expect_bind (reads_boxed_rest hsized)

lemma reads_namedIndex {entry : Nat × String} (hroom : w.Holds (nameEntry entry).length)
    (h : w.Holds entry.1) : Reads (namedIndex w) (nameEntry entry) entry := by
  have hname : w.Holds (nameBytes entry.2).length := by
    refine hroom.mono ?_
    rw [nameEntry, List.length_append]
    exact Nat.le_add_left _ _
  exact (reads_unsigned h).bind ((reads_text hname).map (g := fun name => (entry.1, name)))

lemma nameEntry_pos (entry : Nat × String) : 0 < (nameEntry entry).length := by
  rw [nameEntry, List.length_append]
  exact Nat.add_pos_left (uleb_pos _) _

lemma reads_localNames {entry : Nat × List (Nat × String)}
    (hroom : w.Holds (localNamesEntry entry).length)
    (h : ∀ n ∈ entry.1 :: entry.2.map (·.1), w.Holds n) :
    Reads (localNames w) (localNamesEntry entry) entry := by
  obtain ⟨hindex, hnames⟩ := List.forall_mem_cons.mp h
  have hvector : w.Holds (vector nameEntry entry.2).length := by
    refine hroom.mono ?_
    rw [localNamesEntry, List.length_append]
    exact Nat.le_add_left _ _
  have hread : Reads (counted w (namedIndex w)) (vector nameEntry entry.2) entry.2 :=
    reads_counted hvector (fun e _ => nameEntry_pos e) fun e he hlen =>
      reads_namedIndex hlen (hnames e.1 (List.mem_map_of_mem he))
  exact (reads_unsigned hindex).bind (hread.map (g := fun names => (entry.1, names)))

lemma localNamesEntry_pos (entry : Nat × List (Nat × String)) :
    0 < (localNamesEntry entry).length := by
  rw [localNamesEntry, List.length_append]
  exact Nat.add_pos_left (uleb_pos _) _

end AnnotatedWasm.Wasm
