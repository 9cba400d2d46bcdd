import AtomicCss.Proofs.Sheet.Flattening
import AtomicCss.Proofs.Sheet.Pieces

/-! # Blank lines

A sheet may also be written into one growing text, from the front to the back, with no list of chunks
at hand. A blank line then comes in front of a chunk that stands outside of at-rules and behind other
text (`Writer.put`). What an at-rule holds is written apart first, since an at-rule without content is
left out.

That text is the sheet (`Writer.pour_eq`). So blank lines are separators and nothing else, which is
the main result, `Document.sheet_blankLines`. -/

namespace AtomicCss

namespace Writer

variable {w : Writer} {blankLines : Bool} {depth : Nat} {chunks : List String}

/-! ## Writing into one text -/

/-- Puts a chunk behind a text. -/
def put (blankLines : Bool) (depth : Nat) (out chunk : String) : String :=
  if depth = 0 ∧ blankLines ∧ out ≠ "" then out ++ "\n" ++ chunk else out ++ chunk

/-- Puts an at-rule behind a text, unless there is nothing inside of it. -/
def putAtRule (w : Writer) (blankLines : Bool) (depth : Nat) (header inner out : String) : String :=
  if inner = "" then out
  else put blankLines depth out
    (w.margin depth ++ header ++ " \x7b\n" ++ inner ++ w.margin depth ++ "\x7d\n")

mutual

/-- Writes a node behind a text. -/
def pour (w : Writer) (blankLines : Bool) (p : Place) (out : String) : Node → Except Error String
  | .raw css =>
    .ok (if p.inRule then out else (w.fragment p.depth css).foldl (put blankLines p.depth) out)
  | .slot _ entries => w.pourAll blankLines p out entries
  | .container id kind block children =>
    let here := p.enter id kind
    match kind with
    | .root => do
      let own ← w.rule here [":root"] block []
      w.pourAll blankLines { here with selectors := none }
        (own.foldl (put blankLines p.depth) out) children
    | .selector text => do
      let selectors := Selector.nest p.selectors text
      let own ← w.rule here selectors block (rawTexts children)
      w.pourAll blankLines { here with selectors := some selectors, inRule := true }
        (own.foldl (put blankLines p.depth) out) children
    | .media query => do
      let inside := { here with depth := p.depth + 1 }
      let own ← w.rule inside (p.selectors.getD [":root"]) block []
      let inner ← w.pourAll blankLines inside (own.foldl (put blankLines inside.depth) "") children
      return w.putAtRule blankLines p.depth ("@media " ++ query) inner out
    | .keyframes name => do
      let inside := { here with selectors := none, depth := p.depth + 1 }
      let inner ← w.pourAll blankLines inside "" children
      return w.putAtRule blankLines p.depth ("@keyframes " ++ name) inner out

/-- Writes some nodes behind a text, one after the other. -/
def pourAll (w : Writer) (blankLines : Bool) (p : Place) (out : String) :
    List Node → Except Error String
  | [] => .ok out
  | n :: ns => do
    let out ← w.pour blankLines p out n
    w.pourAll blankLines p out ns

end

/-! ## Chunks have a text -/

theorem ne_empty_of_mem_rule {p : Place} {selectors : List String} {block : Block}
    {raws : List String} (h : w.rule p selectors block raws = .ok chunks) :
    ∀ c ∈ chunks, c ≠ "" := by
  unfold rule at h
  dsimp only at h
  split at h
  · obtain rfl := Except.ok.inj h
    nofun
  · obtain ⟨declarations, -, h⟩ := bind_eq_ok.1 h
    obtain rfl := Except.ok.inj h
    intro c hc
    rw [List.mem_singleton.1 hc]
    simp

theorem ne_empty_of_mem_fragment {css : String} : ∀ c ∈ w.fragment depth css, c ≠ "" := by
  unfold fragment
  dsimp only
  intro c hc
  split at hc
  · cases hc
  · rename_i hlines
    rw [List.mem_singleton.1 hc]
    cases hl : (Text.trimmedLines css.toList).map String.ofList with
    | nil => simp [hl] at hlines
    | cons line lines => simp [String.join_cons]

theorem ne_empty_of_mem_atRule {header : String} : ∀ c ∈ w.atRule depth header chunks, c ≠ "" := by
  unfold atRule
  intro c hc
  split at hc
  · cases hc
  · rw [List.mem_singleton.1 hc]
    simp

mutual

theorem ne_empty_of_mem_chunks : ∀ (n : Node) {p : Place} {chunks : List String},
    w.chunks p n = .ok chunks → ∀ c ∈ chunks, c ≠ ""
  | .raw css, p, _, h => by
    obtain rfl := Except.ok.inj h
    split
    · nofun
    · exact ne_empty_of_mem_fragment
  | .slot _ entries, _, _, h => ne_empty_of_mem_chunksOf entries h
  | .container id .root block children, p, _, h => by
    obtain ⟨own, hown, h⟩ := bind_eq_ok.1 h
    obtain ⟨inner, hinner, h⟩ := bind_eq_ok.1 h
    obtain rfl := Except.ok.inj h
    exact List.forall_mem_append.2
      ⟨ne_empty_of_mem_rule hown, ne_empty_of_mem_chunksOf children hinner⟩
  | .container id (.selector text) block children, p, _, h => by
    obtain ⟨own, hown, h⟩ := bind_eq_ok.1 h
    obtain ⟨inner, hinner, h⟩ := bind_eq_ok.1 h
    obtain rfl := Except.ok.inj h
    exact List.forall_mem_append.2
      ⟨ne_empty_of_mem_rule hown, ne_empty_of_mem_chunksOf children hinner⟩
  | .container id (.media query) block children, p, _, h => by
    obtain ⟨own, -, h⟩ := bind_eq_ok.1 h
    obtain ⟨inner, -, h⟩ := bind_eq_ok.1 h
    obtain rfl := Except.ok.inj h
    exact ne_empty_of_mem_atRule
  | .container id (.keyframes name) block children, p, _, h => by
    obtain ⟨inner, -, h⟩ := bind_eq_ok.1 h
    obtain rfl := Except.ok.inj h
    exact ne_empty_of_mem_atRule

theorem ne_empty_of_mem_chunksOf : ∀ (ns : List Node) {p : Place} {chunks : List String},
    w.chunksOf p ns = .ok chunks → ∀ c ∈ chunks, c ≠ ""
  | [], _, _, h => by
    obtain rfl := Except.ok.inj h
    nofun
  | n :: ns, _, _, h => by
    obtain ⟨first, hfirst, h⟩ := bind_eq_ok.1 h
    obtain ⟨rest, hrest, h⟩ := bind_eq_ok.1 h
    obtain rfl := Except.ok.inj h
    exact List.forall_mem_append.2
      ⟨ne_empty_of_mem_chunks n hfirst, ne_empty_of_mem_chunksOf ns hrest⟩

end

/-! ## One chunk after the other -/

theorem join_eq_empty_iff (h : ∀ c ∈ chunks, c ≠ "") : String.join chunks = "" ↔ chunks = [] := by
  cases chunks with
  | nil => simp
  | cons c chunks =>
    have hc := h c List.mem_cons_self
    simp [String.join_cons, hc]

/-- Inside of at-rules, and without blank lines, chunks follow each other. -/
theorem foldl_put_eq_join (h : ¬(depth = 0 ∧ blankLines)) (out : String) :
    chunks.foldl (put blankLines depth) out = out ++ String.join chunks := by
  have hput (out chunk : String) : put blankLines depth out chunk = out ++ chunk := by
    rw [put, if_neg]
    rintro ⟨hdepth, hblank, -⟩
    exact h ⟨hdepth, hblank⟩
  induction chunks generalizing out with
  | nil => simp
  | cons c chunks ih => rw [List.foldl_cons, ih, hput, String.join_cons, String.append_assoc]

/-- An at-rule is put behind a text once its own chunks follow each other. -/
theorem foldl_put_atRule (header : String) (h : ∀ c ∈ chunks, c ≠ "") (out : String) :
    (w.atRule depth header chunks).foldl (put blankLines depth) out =
      w.putAtRule blankLines depth header (chunks.foldl (put blankLines (depth + 1)) "") out := by
  have hinner : chunks.foldl (put blankLines (depth + 1)) "" = String.join chunks := by
    rw [foldl_put_eq_join (by simp), String.empty_append]
  rw [hinner]
  unfold atRule putAtRule
  by_cases hchunks : chunks = []
  · simp [hchunks]
  · rw [if_neg (by simpa using hchunks), if_neg (mt (join_eq_empty_iff h).1 hchunks)]
    rfl

/-- Outside of at-rules, what stands between chunks is a blank line or nothing. -/
theorem foldl_put_eq_intercalate (h : ∀ c ∈ chunks, c ≠ "") :
    chunks.foldl (put blankLines 0) "" =
      (if blankLines then "\n" else "").intercalate chunks := by
  cases blankLines with
  | false =>
    rw [foldl_put_eq_join (by simp), String.empty_append]
    exact (Document.intercalate_empty chunks).symm
  | true =>
    -- behind the first chunk, the text is never empty again
    have hbehind {out : String} (hout : out ≠ "") {chunks : List String} :
        chunks.foldl (put true 0) out = "\n".intercalate (out :: chunks) := by
      induction chunks generalizing out with
      | nil => simp
      | cons c chunks ih =>
        have hput : put true 0 out c = out ++ "\n" ++ c := if_pos ⟨rfl, rfl, hout⟩
        have hne : out ++ "\n" ++ c ≠ "" := by simp
        rw [List.foldl_cons, hput, ih hne]
        cases chunks <;> simp [String.intercalate_cons_cons, String.append_assoc]
    cases chunks with
    | nil => simp
    | cons c chunks =>
      have hput : put true 0 "" c = c := by simp [put]
      rw [List.foldl_cons, hput, hbehind (h c List.mem_cons_self)]
      rfl

mutual

/-- Writing a node puts its chunks behind the text, one after the other. -/
theorem pour_eq : ∀ (n : Node) (p : Place) (out : String), w.pour blankLines p out n =
    (w.chunks p n).map fun chunks => chunks.foldl (put blankLines p.depth) out
  | .raw css, p, out => by
    rw [pour, chunks]
    split <;> rfl
  | .slot _ entries, p, out => by rw [pour, chunks, pourAll_eq entries]
  | .container id .root block children, p, out => by
    rw [pour, chunks]
    cases w.rule (p.enter id .root) [":root"] block [] with
    | error cause => rfl
    | ok own =>
      refine (pourAll_eq children _ _).trans ?_
      cases w.chunksOf _ children with
      | error cause => rfl
      | ok inner => exact congrArg Except.ok List.foldl_append.symm
  | .container id (.selector text) block children, p, out => by
    rw [pour, chunks]
    cases w.rule (p.enter id (.selector text)) (Selector.nest p.selectors text) block
        (rawTexts children) with
    | error cause => rfl
    | ok own =>
      refine (pourAll_eq children _ _).trans ?_
      cases w.chunksOf _ children with
      | error cause => rfl
      | ok inner => exact congrArg Except.ok List.foldl_append.symm
  | .container id (.media query) block children, p, out => by
    let inside : Place := { p.enter id (.media query) with depth := p.depth + 1 }
    let close (inner : String) := w.putAtRule blankLines p.depth ("@media " ++ query) inner out
    rw [pour, chunks]
    cases hown : w.rule inside (p.selectors.getD [":root"]) block [] with
    | error cause => rfl
    | ok own =>
      have hpour := pourAll_eq children inside (own.foldl (put blankLines inside.depth) "")
      refine (congrArg (Except.map close) hpour).trans ?_
      cases hinner : w.chunksOf inside children with
      | error cause => rfl
      | ok inner =>
        have hne := List.forall_mem_append.2
          ⟨ne_empty_of_mem_rule hown, ne_empty_of_mem_chunksOf children hinner⟩
        apply congrArg Except.ok
        refine Eq.trans ?_ (foldl_put_atRule _ hne out).symm
        rw [List.foldl_append]
  | .container id (.keyframes name) block children, p, out => by
    let inside : Place :=
      { p.enter id (.keyframes name) with selectors := none, depth := p.depth + 1 }
    let close (inner : String) := w.putAtRule blankLines p.depth ("@keyframes " ++ name) inner out
    rw [pour, chunks]
    refine (congrArg (Except.map close) (pourAll_eq children inside "")).trans ?_
    cases hinner : w.chunksOf inside children with
    | error cause => rfl
    | ok inner =>
      apply congrArg Except.ok
      exact (foldl_put_atRule _ (ne_empty_of_mem_chunksOf children hinner) out).symm

theorem pourAll_eq : ∀ (ns : List Node) (p : Place) (out : String), w.pourAll blankLines p out ns =
    (w.chunksOf p ns).map fun chunks => chunks.foldl (put blankLines p.depth) out
  | [], p, out => rfl
  | n :: ns, p, out => by
    rw [pourAll, chunksOf, pour_eq n]
    cases w.chunks p n with
    | error cause => rfl
    | ok first =>
      refine (pourAll_eq ns _ _).trans ?_
      cases w.chunksOf p ns with
      | error cause => rfl
      | ok rest => exact congrArg Except.ok List.foldl_append.symm

end

end Writer

/-! ## Sheets -/

namespace Document

/-- The sheet of a document, written into one text. -/
def poured (d : Document) (vars : Variables) (config : String) (layout : Layout) :
    Except Error String :=
  Writer.pour ⟨vars, config, layout.indent⟩ layout.blankLines .outermost "" d.tree

theorem sheet_eq_poured (d : Document) (vars : Variables) (config : String) (layout : Layout) :
    d.sheet vars config layout = d.poured vars config layout := by
  rw [sheet, poured, Writer.pour_eq]
  cases hchunks : Writer.chunks ⟨vars, config, layout.indent⟩ .outermost d.tree with
  | error e => rfl
  | ok chunks =>
    have hne := Writer.ne_empty_of_mem_chunks d.tree hchunks
    exact congrArg Except.ok (Writer.foldl_put_eq_intercalate hne).symm

/-- **Blank lines are only separators.** In either layout, a sheet is what is written into one text.
Without blank lines and with them it fails alike, or else it consists of the same chunks, which are the
texts of its rules, at-rules and raw fragments in order. None of these is empty. Without blank lines
they follow each other, and with blank lines a single line feed stands between neighbours. -/
theorem sheet_blankLines (d : Document) (vars : Variables) (config indent : String) :
    (∀ blankLines, d.sheet vars config ⟨indent, blankLines⟩ =
      d.poured vars config ⟨indent, blankLines⟩) ∧
    ((∃ e, d.sheet vars config ⟨indent, false⟩ = .error e ∧
        d.sheet vars config ⟨indent, true⟩ = .error e) ∨
      ∃ chunks, Writer.texts ⟨vars, config, indent⟩ d.pieces = .ok chunks ∧
        (∀ c ∈ chunks, c ≠ "") ∧
        d.sheet vars config ⟨indent, false⟩ = .ok (String.join chunks) ∧
        d.sheet vars config ⟨indent, true⟩ = .ok ("\n".intercalate chunks)) := by
  refine ⟨fun _ => d.sheet_eq_poured .., ?_⟩
  have hsheet (blankLines : Bool) : d.sheet vars config ⟨indent, blankLines⟩ =
      (Writer.texts ⟨vars, config, indent⟩ d.pieces).map
        (if blankLines then "\n" else "").intercalate := d.sheet_eq ..
  rw [hsheet, hsheet]
  cases htexts : Writer.texts ⟨vars, config, indent⟩ d.pieces with
  | error e => exact .inl ⟨e, rfl, rfl⟩
  | ok chunks =>
    have hchunks := (Writer.chunks_eq d.tree .outermost).trans htexts
    refine .inr ⟨chunks, rfl, Writer.ne_empty_of_mem_chunks d.tree hchunks, ?_, rfl⟩
    exact congrArg Except.ok (intercalate_empty chunks)

end Document

end AtomicCss
