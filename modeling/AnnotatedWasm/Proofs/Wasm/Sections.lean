import AnnotatedWasm.Proofs.Wasm.Decoding

/-!
Modules are read back as they were written: first the sections with their sizes, then what they
hold. Sections for globals and data are there only if they have entries.
-/

namespace AnnotatedWasm.Wasm

open Reader

variable {w : Limit}

/-! ### Sizes -/

/-- Sections one after the other. -/
def partsBytes (parts : List Section) : List UInt8 := parts.flatMap fun s => part s.id s.payload

/-- There is room for each section of a file that is not too long. -/
lemma holds_payload {parts : List Section} {s : Section} (hs : s ∈ parts)
    (h : w.Holds (partsBytes parts).length) : w.Holds (sized s.payload).length := by
  have hsub : (part s.id s.payload).Sublist (parts.map fun s => part s.id s.payload).flatten :=
    List.sublist_flatten_of_mem (List.mem_map_of_mem hs)
  refine h.mono (Nat.le_trans ?_ hsub.length_le)
  rw [part, List.length_cons]
  exact Nat.le_succ _

lemma readParts_partsBytes {parts : List Section} {fuel : Nat} (hfuel : parts.length ≤ fuel)
    (h : w.Holds (partsBytes parts).length) : readParts w fuel (partsBytes parts) = some parts := by
  induction parts generalizing fuel with
  | nil => cases fuel <;> rfl
  | cons s parts ih =>
    cases fuel with
    | zero => cases hfuel
    | succ fuel =>
      have hrest : w.Holds (partsBytes parts).length := by
        refine h.mono ?_
        rw [partsBytes, partsBytes, List.flatMap_cons, List.length_append]
        exact Nat.le_add_left _ _
      have hread := reads_boxed_rest (holds_payload List.mem_cons_self h) (partsBytes parts)
      show ((boxed w rest).run (sized s.payload ++ partsBytes parts) >>= fun read => do
        return (⟨s.id, read.1⟩ : Section) :: (← readParts w fuel read.2)) = _
      rw [hread]
      show (do return (⟨s.id, s.payload⟩ : Section) :: (← readParts w fuel (partsBytes parts))) = _
      rw [ih (Nat.le_of_succ_le_succ hfuel) hrest]
      rfl

lemma length_le_partsBytes (parts : List Section) : parts.length ≤ (partsBytes parts).length := by
  induction parts with
  | nil => exact Nat.zero_le _
  | cons s parts ih =>
    rw [partsBytes, List.flatMap_cons, List.length_append, part, List.length_cons,
      List.length_cons]
    have hrest : parts.length ≤ (parts.flatMap fun s => part s.id s.payload).length := ih
    omega

/-! ### Contents -/

lemma run_bind_some {σ α β : Type} {x : StateT σ Option α} {f : α → StateT σ Option β} {s t : σ}
    {a : α} (h : x.run s = some (a, t)) : (x >>= f).run s = (f a).run t := by
  rw [StateT.run_bind, h]
  rfl

lemma run_lift {σ α : Type} {o : Option α} {a : α} {s : σ} (h : o = some a) :
    (liftM o : StateT σ Option α).run s = some (a, s) := by
  rw [h]
  rfl

section

variable {α : Type} {id : UInt8} {r : Reader α} {rest : List Section}

lemma run_nextPart {payload : List UInt8} {a : α} (h : whole r payload = some a) :
    (nextPart id r).run (⟨id, payload⟩ :: rest) = some (some a, rest) := by
  show (if id = id then _ else _ : StateT (List Section) Option (Option α)).run _ = _
  rw [if_pos rfl]
  show (do
    set rest
    return some (← (liftM (whole r payload) : StateT (List Section) Option α))).run _ = _
  rw [h]
  rfl

lemma run_nextPart_absent (h : ∀ s ∈ rest.head?, s.id ≠ id) :
    (nextPart id r).run rest = some (none, rest) := by
  cases rest with
  | nil => rfl
  | cons s rest =>
    show (if s.id = id then _ else _ : StateT (List Section) Option (Option α)).run _ = _
    rw [if_neg (h s rfl)]
    rfl

/-- The entries of a section that is there. -/
lemma run_entries {item : α → List UInt8} {xs : List α}
    (h : Reads (counted w r) (vector item xs) xs) :
    (entries w id r).run (⟨id, vector item xs⟩ :: rest) = some (xs, rest) := by
  rw [entries, run_bind_some (run_nextPart h.whole)]
  rfl

/-- A section that is there only if it has entries. -/
def optionalPart (id : UInt8) (xs : List α) (payload : List UInt8) : List Section :=
  if xs.isEmpty then [] else [⟨id, payload⟩]

lemma run_nextPart_optional {β : Type} {xs : List β} {payload : List UInt8} {a : α}
    (h : xs ≠ [] → whole r payload = some a) (hrest : ∀ s ∈ rest.head?, s.id ≠ id) :
    (nextPart id r).run (optionalPart id xs payload ++ rest) =
      some (if xs.isEmpty then none else some a, rest) := by
  cases xs with
  | nil => exact run_nextPart_absent hrest
  | cons x xs => exact run_nextPart (h (List.cons_ne_nil x xs))

lemma run_entries_optional {item : α → List UInt8} {xs : List α}
    (h : xs ≠ [] → Reads (counted w r) (vector item xs) xs)
    (hrest : ∀ s ∈ rest.head?, s.id ≠ id) :
    (entries w id r).run (optionalPart id xs (vector item xs) ++ rest) = some (xs, rest) := by
  rw [entries, run_bind_some (run_nextPart_optional (fun hne => (h hne).whole) hrest)]
  cases xs <;> rfl

end

/-- The next section has another code. -/
lemma next_ne {id id' : UInt8} {payload : List UInt8} {rest : List Section} (h : id' ≠ id) :
    ∀ s ∈ ((⟨id', payload⟩ : Section) :: rest).head?, s.id ≠ id := by
  rintro s ⟨⟩
  exact h

lemma run_noneLeft : noneLeft.run [] = some ((), []) := rfl

/-! ### Names -/

namespace Names

def numbers (n : Names) : List Nat :=
  n.functions.map (·.1) ++ n.locals.flatMap (fun e => e.1 :: e.2.map (·.1)) ++
    n.globals.map (·.1)

def parts (n : Names) : List Section :=
  [⟨0x01, vector nameEntry n.functions⟩, ⟨0x02, vector localNamesEntry n.locals⟩,
    ⟨0x07, vector nameEntry n.globals⟩]

lemma bytes_eq (n : Names) : n.bytes = nameBytes "name" ++ partsBytes n.parts := by
  simp [bytes, parts, partsBytes]

end Names

lemma reads_nameMap {names : List (Nat × String)} (hroom : w.Holds (vector nameEntry names).length)
    (h : ∀ n ∈ names.map (·.1), w.Holds n) :
    Reads (counted w (namedIndex w)) (vector nameEntry names) names :=
  reads_counted hroom (fun e _ => nameEntry_pos e) fun e he hlen =>
    reads_namedIndex hlen (h e.1 (List.mem_map_of_mem he))

lemma Names.run_ofParts {n : Names} (hroom : w.Holds (partsBytes n.parts).length)
    (h : ∀ i ∈ n.numbers, w.Holds i) : (Names.ofParts w).run n.parts = some (n, []) := by
  simp only [Names.numbers, List.forall_mem_append] at h
  obtain ⟨⟨hfunctions, hlocals⟩, hglobals⟩ := h
  have hroom' : ∀ s ∈ n.parts, w.Holds s.payload.length := fun s hs =>
    (holds_payload hs hroom).of_sized
  simp only [Names.parts, List.forall_mem_cons] at hroom'
  obtain ⟨hroomF, hroomL, hroomG, -⟩ := hroom'
  have hreadL : Reads (counted w (localNames w)) (vector localNamesEntry n.locals) n.locals :=
    reads_counted hroomL (fun e _ => localNamesEntry_pos e) fun e he hlen =>
      reads_localNames hlen fun i hi => hlocals i (List.mem_flatMap.mpr ⟨e, he, hi⟩)
  rw [Names.ofParts, Names.parts, run_bind_some (run_entries (reads_nameMap hroomF hfunctions)),
    run_bind_some (run_entries hreadL),
    run_bind_some (run_entries (reads_nameMap hroomG hglobals)), run_bind_some run_noneLeft]
  rfl

lemma whole_names {n : Names} (hroom : w.Holds n.bytes.length) (h : ∀ i ∈ n.numbers, w.Holds i) :
    whole (Reader.names w) n.bytes = some n := by
  have hlength : n.bytes.length = (nameBytes "name").length + (partsBytes n.parts).length := by
    rw [n.bytes_eq, List.length_append]
  have hparts : w.Holds (partsBytes n.parts).length := hroom.mono (by omega)
  have hrun : (Reader.names w).run n.bytes = some (n, []) := by
    have hguard : (guard ("name" = "name") : Reader Unit).run (partsBytes n.parts) =
        some ((), partsBytes n.parts) := by
      rw [guard, if_pos rfl]
      rfl
    have hrest : rest.run (partsBytes n.parts) = some (partsBytes n.parts, []) := rfl
    have hread := readParts_partsBytes (length_le_partsBytes _) hparts
    have hnames : (Names.ofParts w).run' n.parts = some n := by
      rw [StateT.run'_eq, Names.run_ofParts hparts h]
      rfl
    rw [n.bytes_eq, Reader.names,
      run_bind_some (reads_text (hroom.mono (by omega)) (partsBytes n.parts)),
      run_bind_some hguard, run_bind_some hrest, run_bind_some (run_lift hread), run_lift hnames]
  rw [whole, hrun]

/-! ### Modules -/

namespace Module

/-- The indices and counts in a module apart from lengths. -/
def numbers (m : Module) : List Nat :=
  m.types.flatMap TypeDef.numbers ++ m.functions ++ m.exports.map (·.index) ++
    m.codes.flatMap Code.numbers ++ m.names.numbers

def parts (m : Module) : List Section :=
  ⟨0x01, vector TypeDef.bytes m.types⟩ :: ⟨0x03, vector uleb m.functions⟩ ::
    (optionalPart 0x06 m.globals (vector Global.bytes m.globals) ++
      ⟨0x07, vector Export.bytes m.exports⟩ ::
        (optionalPart 0x0c m.data (uleb m.data.length) ++
          ⟨0x0a, vector Code.bytes m.codes⟩ ::
            (optionalPart 0x0b m.data (vector segmentBytes m.data) ++ [⟨0x00, m.names.bytes⟩])))

lemma partsBytes_append (ps qs : List Section) :
    partsBytes (ps ++ qs) = partsBytes ps ++ partsBytes qs :=
  List.flatMap_append

lemma partsBytes_optionalPart {α : Type} (id : UInt8) (xs : List α) (payload : List UInt8) :
    partsBytes (optionalPart id xs payload) = if xs.isEmpty then [] else part id payload := by
  rw [optionalPart]
  split <;> simp [partsBytes]

lemma bytes_eq (m : Module) : m.bytes = preamble ++ partsBytes m.parts := by
  have hcons : ∀ s ps, partsBytes (s :: ps) = part s.id s.payload ++ partsBytes ps :=
    fun _ _ => List.flatMap_cons
  have hnil : partsBytes [] = [] := rfl
  simp only [bytes, headBytes, dataCountBytes, dataBytes, parts, hcons, hnil, partsBytes_append,
    partsBytes_optionalPart, List.append_assoc, List.append_nil]

/-- The codes of the sections that a module has. -/
lemma map_id_parts (m : Module) : m.parts.map (·.id) =
    [0x01, 0x03] ++ (if m.globals.isEmpty then [] else [0x06]) ++ [0x07] ++
      (if m.data.isEmpty then [] else [0x0c]) ++ [0x0a] ++
      (if m.data.isEmpty then [] else [0x0b]) ++ [0x00] := by
  have hmap : ∀ {α : Type} (id : UInt8) (xs : List α) payload,
      (optionalPart id xs payload).map (·.id) = if xs.isEmpty then [] else [id] := by
    intro α id xs payload
    rw [optionalPart]
    split <;> rfl
  simp only [parts, List.map_cons, List.map_append, hmap, List.map_nil, List.append_assoc,
    List.cons_append, List.nil_append]

end Module

lemma mem_optionalPart {α : Type} {id : UInt8} {xs : List α} {payload : List UInt8}
    (h : xs ≠ []) : (⟨id, payload⟩ : Section) ∈ optionalPart id xs payload := by
  rw [optionalPart, if_neg (by simpa using h)]
  exact List.mem_singleton_self _

/-- **Reading back**: the contents of the sections of a module are the module. -/
lemma Module.run_ofParts {m : Module} (hroom : w.Holds (partsBytes m.parts).length)
    (h : ∀ n ∈ m.numbers, w.Holds n) (hlen : m.codes.length = m.functions.length) :
    (Module.ofParts w).run m.parts = some (m, []) := by
  simp only [Module.numbers, List.forall_mem_append] at h
  obtain ⟨⟨⟨⟨htypes, hfunctions⟩, hexports⟩, hcodes⟩, hnames⟩ := h
  have hpay : ∀ s ∈ m.parts, w.Holds s.payload.length := fun s hs =>
    (holds_payload hs hroom).of_sized
  simp only [Module.parts, List.forall_mem_cons, List.forall_mem_append] at hpay
  obtain ⟨hroomT, hroomF, hroomG, hroomE, hroomA, hroomC, hroomD, hroomN, -⟩ := hpay
  have hreadT : Reads (counted w (typeDef w)) (vector TypeDef.bytes m.types) m.types :=
    reads_counted hroomT (fun t _ => t.bytes_pos) fun t ht hlen =>
      reads_typeDef hlen fun n hn => htypes n (List.mem_flatMap.mpr ⟨t, ht, hn⟩)
  have hreadF : Reads (counted w (unsigned w)) (vector uleb m.functions) m.functions :=
    reads_counted hroomF (fun n _ => uleb_pos n) fun n hn _ => reads_unsigned (hfunctions n hn)
  have hreadG (hne : m.globals ≠ []) :
      Reads (counted w (global w)) (vector Global.bytes m.globals) m.globals :=
    reads_counted (hroomG _ (mem_optionalPart hne)) (fun g _ => g.bytes_pos)
      fun g _ _ => reads_global g
  have hreadE : Reads (counted w (exportEntry w)) (vector Export.bytes m.exports) m.exports :=
    reads_counted hroomE (fun e _ => e.bytes_pos) fun e he hlen =>
      reads_exportEntry hlen (hexports e.index (List.mem_map_of_mem he))
  have hreadC : Reads (counted w (code w)) (vector Code.bytes m.codes) m.codes :=
    reads_counted hroomC (fun c _ => sized_pos _) fun c hc hlen =>
      reads_code hlen fun n hn => hcodes n (List.mem_flatMap.mpr ⟨c, hc, hn⟩)
  have hreadD (hne : m.data ≠ []) :
      Reads (counted w (segment w)) (vector segmentBytes m.data) m.data :=
    reads_counted (hroomD _ (mem_optionalPart hne)) (fun _ _ => Nat.succ_pos _)
      fun _ _ hlen => reads_segment hlen
  -- the number of segments is in a section of its own
  have hreadA (hne : m.data ≠ []) : Reads (unsigned w) (uleb m.data.length) m.data.length :=
    reads_unsigned ((hroomD _ (mem_optionalPart hne)).mono
      (length_le_vector fun _ _ => Nat.succ_pos _))
  have hannounced : (if m.data.isEmpty then none else some m.data.length).getD 0 =
      m.data.length := by
    cases m.data <;> rfl
  rw [Module.ofParts, Module.parts, run_bind_some (run_entries hreadT),
    run_bind_some (run_entries hreadF),
    run_bind_some (run_entries_optional hreadG (next_ne (by decide))),
    run_bind_some (run_entries hreadE),
    run_bind_some (run_nextPart_optional (fun hne => (hreadA hne).whole) (next_ne (by decide))),
    run_bind_some (run_entries hreadC),
    run_bind_some (run_entries_optional hreadD (next_ne (by decide))),
    run_bind_some (run_nextPart (whole_names hroomN hnames)), run_bind_some run_noneLeft]
  simp only [hlen, hannounced, guard, if_true]
  rfl

/-- The file of a module is cut into its sections. -/
lemma readSections_bytes {m : Module} (hroom : w.Holds m.bytes.length) :
    readSections w m.bytes = some m.parts := by
  have hparts : w.Holds (partsBytes m.parts).length := by
    refine hroom.mono ?_
    rw [m.bytes_eq, List.length_append]
    exact Nat.le_add_left _ _
  rw [m.bytes_eq]
  exact readParts_partsBytes (length_le_partsBytes _) hparts

end AnnotatedWasm.Wasm
