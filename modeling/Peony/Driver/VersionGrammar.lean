import Peony.Driver.Exports

namespace Peony

/-! Version scripts with one node, as they are written: the lists of names, and what
stands between the words. -/

/-! ## Names -/

/-- A character without a meaning of its own in a version script. -/
def isNameChar (char : Char) : Bool :=
  !isWhitespace char && !(char ∈ ascii "#/*?[]\\\"\x7b\x7d():;")

structure SymbolName where
  text : Text
  nonempty : text ≠ []
  plain : ∀ char ∈ text, isNameChar char = true
deriving DecidableEq

inductive NameEntry where
  | star
  | symbol (name : SymbolName)
deriving DecidableEq

def NameEntry.text : NameEntry → Text
  | .star => ascii "*"
  | .symbol name => name.text

/-! ## Between the words -/

inductive CommentMark where
  | hash
  | slashes
deriving DecidableEq

def CommentMark.text : CommentMark → Text
  | .hash => ascii "#"
  | .slashes => ascii "//"

structure LineComment where
  mark : CommentMark
  words : Text
  oneLine : '\n' ∉ words
deriving DecidableEq

def LineComment.text (comment : LineComment) : Text := comment.mark.text ++ comment.words

inductive Blank where
  | space (char : Char) (isSpace : isWhitespace char = true)
  | line (comment : LineComment)
  | block (words : Text) (isOpen : ¬ ascii "*/" <:+: words)
deriving DecidableEq

namespace Blank

def text : Blank → Text
  | .space char _ => [char]
  | .line comment => comment.text ++ ['\n']
  | .block words _ => ascii "/*" ++ words ++ ascii "*/"

def isBlock : Blank → Bool
  | .block _ _ => true
  | .space _ _ | .line _ => false

/-- Whether the blank is more than whitespace inside a line that is neither a space nor
a tab. -/
def separates : Blank → Bool
  | .space char _ => char ∈ ascii " \t\n"
  | .line _ => true
  | .block _ _ => false

end Blank

abbrev Gap := List Blank

def Gap.separates (gap : Gap) : Bool := gap.any Blank.separates

/-! ## Scripts -/

structure ListedName where
  entry : NameEntry
  beforeEnd : Gap
  afterEnd : Gap
deriving DecidableEq

structure NameList where
  isGlobal : Bool
  beforeColon : Gap
  afterColon : Gap
  names : List ListedName
deriving DecidableEq

/-- A script of one node. Its last line can be a comment. -/
structure VersionNode where
  first : Gap
  name : Option SymbolName
  beforeOpen : Gap
  afterOpen : Gap
  lists : List NameList
  afterClose : Gap
  last : Gap
  comment : Option LineComment
deriving DecidableEq

def keyword (isGlobal : Bool) : Text := if isGlobal then ascii "global" else ascii "local"

section

variable (write : Blank → Text)

def ListedName.written (listed : ListedName) : Text :=
  listed.entry.text ++ listed.beforeEnd.flatMap write ++ ';' :: listed.afterEnd.flatMap write

def NameList.written (list : NameList) : Text :=
  keyword list.isGlobal ++ list.beforeColon.flatMap write ++
    ':' :: (list.afterColon.flatMap write ++
      list.names.flatMap (ListedName.written write))

def VersionNode.written (node : VersionNode) : Text :=
  node.first.flatMap write ++ (node.name.map SymbolName.text).getD [] ++
    node.beforeOpen.flatMap write ++
      '\x7b' :: (node.afterOpen.flatMap write ++
        node.lists.flatMap (NameList.written write) ++
          '\x7d' :: (node.afterClose.flatMap write ++ ';' :: node.last.flatMap write))

end

def VersionNode.text (node : VersionNode) : Text :=
  node.written Blank.text ++ (node.comment.map LineComment.text).getD []

/-! ## What a script says -/

def NameList.entries (list : NameList) : List NameEntry := list.names.map ListedName.entry

/-- The entries under a `global:` label. -/
def VersionNode.globals (node : VersionNode) : List NameEntry :=
  node.lists.flatMap fun list => if list.isGlobal then list.entries else []

def VersionNode.Exports (node : VersionNode) (name : Name) : Prop :=
  .star ∈ node.globals ∨
    ∃ symbol, .symbol symbol ∈ node.globals ∧ encodeUtf8 symbol.text = name

/-! ## What stands apart -/

def ListedName.gaps (listed : ListedName) : List Gap := [listed.beforeEnd, listed.afterEnd]

def NameList.gaps (list : NameList) : List Gap :=
  list.beforeColon :: list.afterColon :: list.names.flatMap ListedName.gaps

def VersionNode.gaps (node : VersionNode) : List Gap :=
  node.first :: node.beforeOpen :: node.afterOpen :: node.afterClose :: node.last ::
    node.lists.flatMap NameList.gaps

def VersionNode.HasNoBlock (node : VersionNode) : Prop :=
  ∀ gap ∈ node.gaps, ∀ blank ∈ gap, blank.isBlock = false

def NameList.endsApart (list : NameList) : Bool :=
  ((list.names.getLast?.map ListedName.afterEnd).getD list.afterColon).separates

/-- Whether nothing touches a label or comes between it and its colon. Braces touch
nothing. -/
def NameList.isApart (list : NameList) (beginsApart isLast : Bool) : Bool :=
  beginsApart && list.beforeColon.isEmpty &&
    (list.afterColon.separates || (list.names.isEmpty && isLast))

def NameList.looseEntries (list : NameList) : List NameEntry :=
  if list.afterColon.separates then list.entries else list.entries.tail

/-- Whether names are listed for export after the label, if only labels that stand apart
count. -/
def NameList.opens (list : NameList) (opened beginsApart isLast : Bool) : Bool :=
  if list.isApart beginsApart isLast then list.isGlobal else opened

/-- The entries to export, if only labels that stand apart count. -/
def heardEntries (opened beginsApart : Bool) : List NameList → List NameEntry
  | [] => []
  | list :: rest =>
      let nowOpened := list.opens opened beginsApart rest.isEmpty
      (if nowOpened then list.looseEntries else []) ++
        heardEntries nowOpened list.endsApart rest

/-- Whether a label that does not stand apart comes where names to export are listed. -/
def mixesLabel (opened beginsApart : Bool) : List NameList → Bool
  | [] => false
  | list :: rest =>
      (opened && !list.isApart beginsApart rest.isEmpty) ||
        mixesLabel (list.opens opened beginsApart rest.isEmpty) list.endsApart rest

def VersionNode.heard (node : VersionNode) : List NameEntry :=
  heardEntries false true node.lists

/-- If only the labels that stand apart count: there is still a `*` under `global:`, or
where there is none, every name listed for export still is, and no other label comes
where names to export are listed. -/
def VersionNode.IsHeard (node : VersionNode) : Prop :=
  if .star ∈ node.globals then .star ∈ node.heard
  else (∀ entry ∈ node.globals, entry ∈ node.heard) ∧ mixesLabel false true node.lists = false

instance (node : VersionNode) : Decidable node.IsHeard :=
  inferInstanceAs (Decidable (if NameEntry.star ∈ node.globals then _ ∈ node.heard
    else (∀ entry ∈ node.globals, entry ∈ node.heard) ∧ _ = false))

end Peony
