import Maml.Parse

/-! Reading token by token.

`parse` says what the tree of a document is. A `Reader` builds that tree as it goes: it
takes tokens from a stream one at a time, opens and closes nodes, notes mistakes,
and keeps the containers that are open. What it has still to do is a list of
jobs. A job does one thing and may leave other jobs to be done first; loops
are jobs that leave themselves.

A reader fails if it asks the stream for a token that it may not have, closes a
node that is not open, counts below zero, or notes a mistake with a reversed
range. -/
namespace Maml

open Draft

/-- A reader part way through a document. -/
structure Reader where
  stream : TokenStream
  /-- The nodes that are open, innermost first, each with the parts it has so far. -/
  nodes : List (NodeKind × List Tree)
  /-- The trees that stand in no open node. -/
  roots : List Tree
  errors : List ParseError
  /-- The containers that are open, innermost first. -/
  enclosing : List Container
  deriving Repr

namespace Reader

/-! ## What a reader sees -/

def next (r : Reader) : Token := r.stream.peek

/-- The significant token behind the next one. -/
def second (r : Reader) : Token := r.stream.nth 1

/-- Whether the open containers end here: with the input or a closer of one of them. -/
def atContainerEnd (r : Reader) : Bool :=
  r.next.kind == .eof || closesAny r.enclosing r.next.kind

/-- Whether a key and a colon come next. -/
def atNextKey (r : Reader) : Bool := r.next.kind.isKeyStart && r.second.kind == .colon

/-- Whether skipping inside an object ends here. -/
def atMemberResume (r : Reader) : Bool :=
  isKey r.next.kind || r.next.kind == .comma || r.atContainerEnd

/-- Whether the value behind a colon is missing. -/
def atMissingValue (r : Reader) : Bool :=
  r.atNextKey || r.next.kind == .comma || r.atContainerEnd

/-- The place right behind the last significant token. -/
def gap (r : Reader) : Span := .empty r.stream.lastEnd

/-! ## What a reader does -/

/-- Puts a tree into the innermost open node. -/
def add (r : Reader) (t : Tree) : Reader :=
  match r.nodes with
  | (kind, parts) :: outer => { r with nodes := (kind, parts ++ [t]) :: outer }
  | [] => { r with roots := r.roots ++ [t] }

def start (r : Reader) (kind : NodeKind) : Reader := { r with nodes := (kind, []) :: r.nodes }

def finish (r : Reader) : Except Fault Reader :=
  match r.nodes with
  | (kind, parts) :: outer => .ok ({ r with nodes := outer }.add (.node (.node kind) parts))
  | [] => .error .unbalanced

/-- Takes the next token, which must be significant. -/
def token (r : Reader) : Except Fault Reader := do
  let (t, stream) ← r.stream.bump
  return { r with stream }.add (tokenLeaf t)

/-- Notes a mistake, whose range must be in order. -/
def report (r : Reader) (expected : Expected) (found : Token) (range : Span) :
    Except Fault Reader := do
  let range ← range.checked
  return { r with errors := r.errors ++ [.ofToken expected found range] }

end Reader

/-! ## Jobs -/

/-- Something that a reader has to do. -/
inductive Job where
  /-- Hands pending trivia to the innermost node. -/
  | trivia
  /-- Takes the next significant token, once trivia has been handed over. -/
  | token
  | start (kind : NodeKind)
  | finish
  /-- A value, whatever stands in its place. -/
  | value
  /-- What is in the node of a value. -/
  | valueBody
  | invalidValue
  | tooDeep
  /-- The tokens of a container nested too deep, inside as many brackets. -/
  | balance (depth : Nat)
  /-- Goes on with them unless all brackets are closed. -/
  | balanceOn (depth : Nat)
  /-- Notes that everything since a token is in the way. -/
  | stretch (expected : Expected) (first : Token)
  | container (c : Container)
  /-- Counts a container among the open ones. -/
  | enter (c : Container)
  | contents (c : Container)
  | closer (c : Container)
  | leave
  /-- The elements of a container; `separated` says that a bracket or a comma is directly in
  front. -/
  | list (c : Container) (separated : Bool)
  | strayComma (expected : Expected)
  | keyValue
  | key
  /-- A key without a colon. -/
  | incomplete
  /-- Notes the missing colon of a key. -/
  | colon (key : Token)
  /-- What is skipped behind a key without a colon. -/
  | junk
  | memberValue
  /-- What begins no member. -/
  | recover
  /-- Skips up to the next place where a member can begin. -/
  | skip
  | skipToken
  /-- The value that is skipped together with a colon. -/
  | skipValue
  | document
  | documentValue
  | trailing
  /-- Everything up to the end. -/
  | rest
  deriving DecidableEq, Repr

namespace Job

/-- The jobs that take a significant token, with the trivia in front of it. -/
def bump : List Job := [trivia, token]

/-- The jobs that make a node, leaving the trivia in front of it to the node around it. -/
def node (kind : NodeKind) (jobs : List Job) : List Job :=
  [trivia, start kind] ++ jobs ++ [finish]

end Job

namespace Reader

/-- The job of reading an element of a container. -/
def element (r : Reader) : Container → Job
  | .object => if isKey r.next.kind then .keyValue else .recover
  | .array => .value

/-- What a job does to a reader, and the jobs that it leaves to be done first. -/
def perform (r : Reader) : Job → Except Fault (Reader × List Job)
  | .trivia =>
    match r.stream.nextTrivia? with
    | some (t, stream) => .ok ({ r with stream }.add (tokenLeaf t), [.trivia])
    | none => .ok (r, [])
  | .token => return (← r.token, [])
  | .start kind => .ok (r.start kind, [])
  | .finish => return (← r.finish, [])
  | .value => .ok (r, Job.node .value [.valueBody])
  | .valueBody =>
    match r.next.kind.opens? with
    | some c =>
      .ok (r, if r.enclosing.length < Container.maxDepth then [.container c] else [.tooDeep])
    | none => .ok (r, if r.next.kind.isScalar then Job.bump else [.invalidValue])
  | .invalidValue => do
    let signed := isSignedNumber r.next r.second
    let range := if signed then r.next.span.cover r.second.span else r.next.span
    let r ← r.report .value r.next range
    return (r, Job.node .invalidValue (Job.bump ++ if signed then Job.bump else []))
  | .tooDeep =>
    .ok (r, Job.node .invalidValue [.balance 0] ++ [.stretch .nestingLimit r.next])
  | .balance depth =>
    if r.next.kind == .eof then
      .ok (r, [])
    else if r.next.kind.isCloser && depth == 0 then
      .error .underflow
    else
      .ok (r, Job.bump ++ [.balanceOn (depthAfter depth r.next.kind)])
  | .balanceOn depth => .ok (r, if depth = 0 then [] else [.balance depth])
  | .stretch expected first =>
    return (← r.report expected first ⟨first.span.start, r.stream.lastEnd⟩, [])
  | .container c =>
    .ok (r, Job.node c.nodeKind (Job.bump ++ [.enter c, .contents c, .closer c, .leave]))
  | .enter c => .ok ({ r with enclosing := c :: r.enclosing }, [])
  | .contents c => .ok (r, if r.atContainerEnd then [] else Job.node c.listKind [.list c true])
  | .closer c =>
    if r.next.kind == c.closer then .ok (r, Job.bump)
    else return (← r.report c.expectedCloser r.next r.gap, [])
  | .leave => .ok ({ r with enclosing := r.enclosing.tail }, [])
  | .list c separated =>
    if r.atContainerEnd then
      .ok (r, [])
    else if r.next.kind == .comma then
      if separated then
        .ok (r, [.strayComma c.expectedElement, .list c false])
      else
        .ok (r, Job.bump ++ [.list c true])
    else
      .ok (r, [r.element c, .list c false])
  | .strayComma expected => do
    let r ← r.report expected r.next r.next.span
    return (r, Job.node .error Job.bump)
  | .keyValue => do
    let jobs := if r.second.kind == .colon then
      Job.node .keyValue ([.key] ++ Job.bump ++ [.memberValue]) else [.incomplete]
    if r.next.kind == .unterminatedString then
      return (← r.report .key r.next r.next.span, jobs)
    else
      return (r, jobs)
  | .key => .ok (r, Job.node .key Job.bump)
  | .incomplete => .ok (r, Job.node .incompleteKeyValue [.key] ++ [.colon r.next, .junk])
  | .colon key =>
    if key.kind == .unterminatedString then .ok (r, [])
    else return (← r.report .colon r.next key.span, [])
  | .junk => .ok (r, if r.atMemberResume then [] else Job.node .error [.skip])
  | .memberValue =>
    if r.atMissingValue then return (← r.report .value r.next r.gap, [])
    else .ok (r, [.value])
  | .recover => do
    let literal := isQuotable r.next.kind && r.second.kind == .colon
    let r ← r.report .key r.next r.next.span
    return (r, Job.node .error (if literal then Job.bump ++ Job.bump ++ [.memberValue]
      else [.skipToken, .skip]))
  | .skip => .ok (r, if r.atMemberResume then [] else [.skipToken, .skip])
  | .skipToken =>
    if r.next.kind.isOpener then .ok (r, [.value])
    else .ok (r, Job.bump ++ if r.next.kind == .colon then [.skipValue] else [])
  | .skipValue => .ok (r, if r.next.kind.startsValue then [.value] else [])
  | .document => .ok (r, [.start .file, .documentValue, .trailing, .trivia, .finish])
  | .documentValue => .ok (r, if beginsDocument r.next.kind then [.value] else [])
  | .trailing =>
    .ok (r, if r.next.kind == .eof then [] else Job.node .error [.rest] ++ [.stretch .eof r.next])
  | .rest => .ok (r, if r.next.kind == .eof then [] else Job.bump ++ [.rest])

/-- A reader that has done nothing yet. -/
def ofStream (stream : TokenStream) : Reader := ⟨stream, [], [], [], []⟩

/-- The one tree that a reader has made, and the mistakes that it has noted. -/
def result (r : Reader) : Except Fault Parse :=
  match r.nodes, r.roots with
  | [], [tree] => .ok ⟨tree, r.errors⟩
  | _, _ => .error .unbalanced

/-- What comes of doing jobs one after the other. -/
inductive Runs : List Job → Reader → Except Fault Reader → Prop where
  | done {r} : Runs [] r (.ok r)
  | step {job jobs r out} (r' more) (h : perform r job = .ok (r', more))
      (hmore : Runs (more ++ jobs) r' out) : Runs (job :: jobs) r out
  | fault {job jobs r f} (h : perform r job = .error f) : Runs (job :: jobs) r (.error f)

/-- What comes of reading what a stream has not handed out. -/
def Reads (stream : TokenStream) (out : Except Fault Parse) : Prop :=
  ∃ end', Runs [.document] (ofStream stream) end' ∧ out = end'.bind result

end Reader

end Maml
