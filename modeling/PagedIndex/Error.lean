import PagedIndex.Image.PageKind
import PagedIndex.PageRef

/-!
# Errors

An error names its cause; its wording is a function of the cause, so that a theorem can speak of the
one and a message show the other.
-/

namespace PagedIndex

/-- The calls on a pager that may be refused from outside. -/
inductive Call where
  | resolve
  | create
  | release
  | flush
  | clear
deriving DecidableEq, Repr

/-- A call as the message of its refusal names it. -/
def Call.name : Call → String
  | resolve => "resolve"
  | create => "create"
  | release => "release"
  | flush => "flush"
  | clear => "clear"

/-- A call as a read-only pager names it. -/
def Call.longName : Call → String
  | resolve => "resolve"
  | create => "create_page"
  | release => "release_page"
  | flush => "flush"
  | clear => "clear"

/-- The broad class of a failed read or write. -/
inductive IoKind where
  | invalidData
  | unexpectedEof
  | other
  | notFound
  | alreadyExists
deriving DecidableEq, Repr

/-- What went wrong while bytes were read or written. -/
inductive IoError where
  /-- A value needs more bytes than are left. -/
  | truncated (left needed : Nat)
  /-- A truth value is stored as neither zero nor one. -/
  | invalidBool (byte : UInt8)
  /-- A text stops being well-formed at `start`; `length` counts the bytes of the ill-formed sequence,
  none if the text ends inside it. -/
  | illFormedText (start : Nat) (length : Option Nat)
  /-- A filter announces a shape no filter has. -/
  | filterShape (bits hashes : Nat)
  /-- A page of the tree was expected. -/
  | notTreePage (found : PageKind)
  /-- A page's payload goes on after its last slot. -/
  | trailingBytes (count : Nat)
  /-- The image has another version. -/
  | unknownVersion (version : Nat)
  /-- The image is too short to say where its descriptor is. -/
  | noTrailer
  /-- A page starts at or past the end of the image. -/
  | pageStart (offset size : Nat)
  /-- A page's payload runs past the end of the image. -/
  | pageBody (offset : Nat)
  /-- A page's payload is not the one its checksum was made for. -/
  | checksum (offset : Nat)
  /-- The trailer leads to a page that is no descriptor. -/
  | notDescriptor (offset : Nat) (found : PageKind)
  /-- The image ends inside a field. -/
  | shortRead
  /-- A writer has no room for the bytes handed to it. -/
  | writeRefused
  /-- A call on the pager was refused from outside. The reason tells one refusal of such a call from
  another one; the wording does not show it. -/
  | callRefused (call : Call) (reason : Nat)
  /-- There is no file of this name. -/
  | fileMissing
  /-- There is a file of this name already. -/
  | fileExists
deriving DecidableEq

namespace IoError

/-- The class of an error. -/
def kind : IoError → IoKind
  | truncated .. | invalidBool .. | illFormedText .. | filterShape .. | notTreePage ..
  | trailingBytes .. | unknownVersion .. | checksum .. | notDescriptor .. => .invalidData
  | noTrailer | pageStart .. | pageBody .. | shortRead => .unexpectedEof
  | writeRefused | callRefused .. => .other
  | fileMissing => .notFound
  | fileExists => .alreadyExists

/-- The wording of an error. -/
def message : IoError → String
  | truncated left needed => s!"truncated payload: {left} < {needed}"
  | invalidBool byte => s!"invalid bool byte {byte}"
  | illFormedText start (some length) =>
    s!"invalid utf-8 sequence of {length} bytes from index {start}"
  | illFormedText start none => s!"incomplete utf-8 byte sequence from index {start}"
  | filterShape bits hashes => s!"invalid bloom filter shape: {bits} bits, {hashes} hashes"
  | notTreePage found => "expected an index page, found " ++ found.name
  | trailingBytes count => s!"{count} trailing bytes after page payload"
  | unknownVersion version => s!"unsupported format version {version}"
  | noTrailer => "stream is too short to hold a descriptor offset"
  | pageStart offset size => s!"page offset {offset} is past the end of the stream ({size})"
  | pageBody offset => s!"payload of page at {offset} runs past the end of the stream"
  | checksum offset => s!"checksum mismatch for page at {offset}"
  | notDescriptor offset found => s!"expected descriptor page at {offset}, found " ++ found.name
  | shortRead => "failed to fill whole buffer"
  | writeRefused => "write refused"
  | callRefused call _ => call.name ++ " refused"
  | fileMissing => "file not found"
  | fileExists => "file exists"

end IoError

/-- What is wrong with a tree at one of its pages. -/
inductive Flaw where
  /-- A reserved name was followed. -/
  | reservedRef
  /-- No page has this name. -/
  | unknownPage
  /-- A leaf was expected. -/
  | notLeaf
  /-- An inner page was expected. -/
  | notInner
  /-- A mutation reaches a page it had not resolved before it began. -/
  | notPinned
  /-- A mutation needs more new pages than it had reserved. -/
  | reserveExhausted
  /-- A page on the path is no longer of the kind it had when it was resolved. -/
  | kindChanged (during : String)
  /-- A split left its right half without entries. -/
  | emptySplit
  /-- A leaf and an inner page are neighbours. -/
  | siblingLevels
  /-- A page carries another name than the one it was found under. -/
  | wrongName (reported : PageRef)
  /-- A page has more slots than it may have. -/
  | overfull (slots : Nat)
  /-- A page other than the root has fewer slots than it must have. -/
  | underfull (slots : Nat)
  /-- The keys of a leaf do not ascend. -/
  | leafOrder
  /-- A key lies outside the range its leaf serves. -/
  | keyRange (key : String)
  /-- An item is stored under a key that is not its own. -/
  | foreignKey (key : String)
  /-- The accumulators of a leaf are not those of its items. -/
  | staleLeaf
  /-- A leaf lies deeper or less deep than the leaves before it. -/
  | leafDepth (depth others : Nat)
  /-- An inner root has a single child. -/
  | bareRoot
  /-- The separators of an inner page do not ascend. -/
  | separatorOrder
  /-- A separator lies outside the range its page serves. -/
  | separatorRange (key : String)
  /-- The accumulators of an inner page are not those of its children. -/
  | staleInner
  /-- The leaves hold another number of items than the index counts. -/
  | itemCount (held counted : Nat)
  /-- The last leaf is not the one the index remembers. -/
  | rightmostIs (leaf : PageRef)
  /-- The leaf chain visits another page than the one that is next in key order. -/
  | chainReached (other : Option PageRef)
  /-- The leaf chain goes on after the last leaf. -/
  | chainContinues
  /-- A leaf was written at another offset than its neighbour's link names. -/
  | misplacedLeaf (actual predicted : PageRef)
  /-- The page remembered as the last leaf is not on the leaf chain. -/
  | rightmostUnchained
  /-- A leaf of the tree is not on the leaf chain. -/
  | leafUnchained
deriving DecidableEq

namespace Flaw

/-- A link as messages about the leaf chain show it. -/
def linkText : Option PageRef → String
  | some r => "Some(" ++ r.fieldText ++ ")"
  | none => "None"

/-- The wording of a flaw. -/
def message : Flaw → String
  | reservedRef => "cannot resolve a reserved reference"
  | unknownPage => "page is not part of the index"
  | notLeaf => "expected a leaf page"
  | notInner => "expected an inner page"
  | notPinned => "page was not resolved ahead of the mutation"
  | reserveExhausted => "split cascade outgrew its reserved pages"
  | kindChanged during => "page changed kind during " ++ during
  | emptySplit => "split produced an empty leaf"
  | siblingLevels => "siblings on different levels"
  | wrongName reported => "page reports id " ++ reported.text
  | overfull slots => s!"{slots} slots overflow the page"
  | underfull slots => s!"{slots} slots underfill the page"
  | leafOrder => "leaf keys out of order"
  | keyRange key => s!"key {key} outside the routed range"
  | foreignKey key => s!"item stored under {key} reports another key"
  | staleLeaf => "leaf accumulators are stale"
  | leafDepth depth others => s!"leaf at depth {depth}, others at {others}"
  | bareRoot => "inner root without separators"
  | separatorOrder => "separators out of order"
  | separatorRange key => s!"separator {key} outside the routed range"
  | staleInner => "inner accumulators are stale"
  | itemCount held counted => s!"tree holds {held} items, index counts {counted}"
  | rightmostIs leaf => "rightmost leaf is " ++ leaf.text
  | chainReached other => "leaf chain reached " ++ linkText other ++ " instead"
  | chainContinues => "leaf chain continues past the last leaf"
  | misplacedLeaf actual predicted =>
    "allocator placed leaf at " ++ actual.text ++ " instead of " ++ predicted.text
  | rightmostUnchained => "rightmost page is not in the leaf chain"
  | leafUnchained => "leaf is not in the leaf chain"

end Flaw

/-- Why a configuration is rejected. -/
inductive ConfigFault where
  | pageTooSmall (slots minimum : Nat)
  | pageTooLarge (slots : Nat)
  /-- The rate, as a message shows it, is not strictly between zero and one. -/
  | rateOutside (rate : String)
  /-- An index was to be created where one is stored already. -/
  | alreadyStored
  /-- An index was to be opened where none is stored. -/
  | nothingStored
  /-- The stored index keeps another number of measures than are registered. -/
  | measureCount (stored registered : Nat)
deriving DecidableEq

/-- The wording of a rejected configuration. -/
def ConfigFault.message : ConfigFault → String
  | pageTooSmall slots minimum => s!"page size {slots} is below the minimum of {minimum}"
  | pageTooLarge slots => s!"page size {slots} does not fit the page header"
  | rateOutside rate => s!"bloom false positive rate {rate} must be in (0, 1)"
  | alreadyStored => "provider already holds an index, open it instead"
  | nothingStored => "provider holds no persisted index"
  | measureCount stored registered =>
    s!"index was built with {stored} measures, {registered} registered"

/-- Why an operation is not available. -/
inductive Unsupported where
  /-- The pager has not been started. -/
  | notStarted
  /-- The pager serves a written image, which does not change. -/
  | readOnly (call : Call)
  /-- The index lies on such a pager. -/
  | mutation
deriving DecidableEq

/-- The wording of an operation that is not available. -/
def Unsupported.message : Unsupported → String
  | notStarted => "provider is not initialized"
  | readOnly call => call.longName ++ " on a read-only provider"
  | mutation => "mutation of a read-only index"

/-- Every error an operation on an index can end with. -/
inductive IndexError where
  | duplicateKey
  | keyNotFound
  | corruption (page : PageRef) (flaw : Flaw)
  | unsupported (what : Unsupported)
  | persistence (page : PageRef) (cause : IoError)
  | io (cause : IoError)
  | invalidConfig (fault : ConfigFault)
  | alreadyStarted
  | disposed
deriving DecidableEq

namespace IndexError

/-- The wording of an error. -/
def message : IndexError → String
  | duplicateKey => "an item with the same key has already been added"
  | keyNotFound => "key not found"
  | corruption page flaw => "structural corruption at " ++ page.text ++ ": " ++ flaw.message
  | unsupported what => "operation not supported: " ++ what.message
  | persistence page cause => "failed to read or write " ++ page.text ++ ": " ++ cause.message
  | io cause => "I/O error: " ++ cause.message
  | invalidConfig fault => "invalid configuration: " ++ fault.message
  | alreadyStarted => "provider is already initialized"
  | disposed => "provider has been disposed"

/-- The failed read or write behind an error, if there is one. -/
def cause? : IndexError → Option IoError
  | persistence _ cause | io cause => some cause
  | _ => none

end IndexError

end PagedIndex
