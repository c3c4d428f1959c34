import Maml.Proofs.Silence

/-! A document that is laid out is read back.

Whatever gaps, commas and line breaks a document is written with, it is read
without a mistake, the typed views of its tree give back exactly that document,
and the rules find nothing but keys that were used before (`parse_layout`). -/
namespace Maml

open Draft

theorem exists_drawn_of_layout {d : Document} {text : Text} (h : Layout d text)
    (hdepth : d.depth ≤ Container.maxDepth) : ∃ v, ∃ trailing : List Token, Drawn (.value d) [v] ∧
      parse text = ⟨.node (.node .file) (trees [v] ++ trailing.map tokenLeaf), []⟩ := by
  obtain ⟨ss, rest, hss, hend, htext⟩ := h
  let input := Lexemes.ofTokens (tokenize text) text.size
  have houtline : input.lexemes.map Lexeme.outline = ss.map Spaced.outline :=
    map_outline_lexemes hss hend htext
  have hroom : ([] : List Container).length + (Part.value d).depth ≤ Container.maxDepth := by
    simpa [Part.depth] using hdepth
  have hread : ReadDrawn input.eof [] (.value d) input.lexemes :=
    readDrawn_of_laidOut hss hroom houtline
  obtain ⟨v, hread, hv, hdrawn⟩ := hread
  refine ⟨v.asValue, input.trailing, hdrawn, ?_⟩
  rw [parse, Parse.ofLexemes, documentDrafts_of_readAs hread hv, errorsList_of_drawn hdrawn]

/-- The value of a file is its one draft; what is behind it is trivia. -/
theorem value?_file {v : Draft} {value : View.Value}
    (h : (siteOf 0 [] v).view? .value = some value) (trailing : List Token) :
    View.File.value? ⟨0, [], trees [v] ++ trailing.map tokenLeaf⟩ = some value := by
  have hviews : (Site.row 0 [] (trees [v] ++ trailing.map tokenLeaf)).filterMap (·.view? .value) =
      viewsIn .value 0 [] [v] := by
    rw [row_append, List.filterMap_append, filterMap_view?_tokens, List.append_nil]
    rfl
  rw [View.File.value?, View.first?, ← List.head?_filterMap, View.parts, hviews, viewsIn_cons, h]
  rfl

theorem readFrom_of_layout {d : Document} {text : Text} (h : Layout d text)
    (hdepth : d.depth ≤ Container.maxDepth) : (parse text).errors = [] ∧
      ∃ file value, (Site.root (parse text).tree).view? .file = some file ∧
        View.File.value? file = some value ∧ d.ReadFrom value := by
  obtain ⟨v, trailing, hdrawn, hparse⟩ := exists_drawn_of_layout h hdepth
  obtain ⟨value, hvalue, hread⟩ := readBack_of_drawn hdrawn v rfl 0 []
  rw [hparse]
  exact ⟨rfl, _, value, rfl, value?_file hvalue trailing, hread⟩

/-- A document that is laid out as a text is read from it without a mistake, it is exactly what the
typed views of the tree read as, and if its quoted strings have valid escapes, a check finds
nothing but keys that were used before. -/
theorem parse_layout {d : Document} {text : Text} (h : Layout d text)
    (hdepth : d.depth ≤ Container.maxDepth) :
    (parse text).errors = [] ∧
      (∃ file value, (Site.root (parse text).tree).view? .file = some file ∧
        View.File.value? file = some value ∧ ∀ d', d'.ReadFrom value ↔ d' = d) ∧
      (d.HasValidEscapes → ∀ x ∈ check .default text,
        x.category = .duplicateKey ∧ x.severity = .warning) := by
  obtain ⟨v, trailing, hdrawn, hparse⟩ := exists_drawn_of_layout h hdepth
  let file : View .file := ⟨0, [], trees [v] ++ trailing.map tokenLeaf⟩
  have hfile : (Site.root (parse text).tree).view? .file = some file := by
    rw [hparse]
    rfl
  have herrors : (parse text).errors = [] := by rw [hparse]
  refine ⟨herrors, ?_, fun hescapes x hx => ?_⟩
  · -- the value of the file is the one draft; what is behind it is trivia
    obtain ⟨value, hvalue, hread⟩ := readBack_of_drawn hdrawn v rfl 0 []
    have hviews : file.parts.filterMap (·.view? .value) = viewsIn .value 0 [] [v] := by
      show (Site.row 0 [] (trees [v] ++ trailing.map tokenLeaf)).filterMap _ = _
      rw [row_append, List.filterMap_append, filterMap_view?_tokens, List.append_nil]
      rfl
    refine ⟨file, value, hfile, ?_, fun d' => ⟨fun hd' => ?_, fun hd' => hd' ▸ hread⟩⟩
    · rw [View.File.value?, View.first?, ← List.head?_filterMap, hviews, viewsIn_cons, hvalue]
      rfl
    · exact Document.eq_of_readFrom d' d hd' hread
  · -- there are no mistakes, so all diagnostics come from the rules
    have hnodes : (Site.root (parse text).tree).views.flatMap (Validation.atNode .default) =
        diagnosticsIn 0 [] [v] := by
      rw [hparse, Site.views, Site.root, Site.descendants, Site.nodesOf, nodesOfRow_append,
        nodesOfRow_map_tokenLeaf, List.append_nil]
      rfl
    simp only [check, mem_sortByRange, Parse.diagnostics, herrors, List.map_nil, List.nil_append]
      at hx
    rw [validate, hnodes] at hx
    exact quiet_of_drawn hdrawn hescapes 0 [] x hx

namespace Sample

def spaced (kind : TokenKind) (c : Char) (cs : Text) (h : Lexer.scan c cs = (kind, cs)) : Spaced :=
  ⟨if kind = .string then ['\n'] else [], ⟨kind, c :: cs, Lexer.lex_eq_of_scan h⟩, by
    split
    · exact .blank rfl .nil
    · exact .nil⟩

def key : Spaced := spaced .identifier 'a' [] (by decide)
def one : Spaced := spaced .number '1' [] (by decide)
def string : Spaced := spaced .string '"' ['x', '"'] (by decide)

/-- An object with an array of a number and a string. -/
def document : Document :=
  .object [(⟨key.word, rfl⟩, .array [.scalar ⟨one.word, rfl⟩, .scalar ⟨string.word, rfl⟩])]

/-- The document on two lines, with a comma at the end of the array and a comment behind all. -/
def text : Text :=
  ['{', 'a', ':', '[', '1', '\n', '"', 'x', '"', ',', ']', '}', '#']

theorem layout : Layout document text := by
  have hstring : LaidOut (.tail .array [.scalar ⟨string.word, rfl⟩])
      ([string] ++ [spaced .comma ',' [] rfl]) :=
    .line rfl (.cons (.item (.scalar rfl)) (.comma rfl .nil))
  have hitems : LaidOut (.list .array [.scalar ⟨one.word, rfl⟩, .scalar ⟨string.word, rfl⟩])
      [one, string, spaced .comma ',' [] rfl] :=
    .cons (.item (.scalar rfl)) hstring
  have harray := @LaidOut.container .array _ (spaced .lBracket '[' [] rfl) _
    (spaced .rBracket ']' [] rfl) rfl rfl hitems
  have hmember := @LaidOut.member ⟨key.word, rfl⟩ _ key (spaced .colon ':' [] rfl) _ rfl rfl harray
  have hobject := @LaidOut.container .object _ (spaced .lBrace '{' [] rfl) _
    (spaced .rBrace '}' [] rfl) rfl rfl (.cons hmember .done)
  exact ⟨_, ['#'], hobject, .comment .nil rfl, rfl⟩

theorem hasValidEscapes : document.HasValidEscapes := by
  intro w hw hkind
  simp only [document, Document.words, Document.wordsOfMembers, Document.wordsOfItems,
    List.append_nil, List.mem_append, List.mem_cons, List.not_mem_nil, or_false] at hw
  rcases hw with rfl | rfl | rfl
  · simp [key, spaced] at hkind
  · simp [one, spaced] at hkind
  · simp [string, spaced, Quoted.invalidEscapes, Quoted.invalidFrom]

end Sample

theorem parse_sample : Layout Sample.document Sample.text ∧
    Sample.document.depth ≤ Container.maxDepth ∧ Sample.document.HasValidEscapes ∧
    (parse Sample.text).errors = [] ∧ ∀ x ∈ check .default Sample.text,
      x.category = .duplicateKey ∧ x.severity = .warning :=
  have hread := parse_layout Sample.layout (by decide)
  ⟨Sample.layout, by decide, Sample.hasValidEscapes, hread.1, hread.2.2 Sample.hasValidEscapes⟩

end Maml
