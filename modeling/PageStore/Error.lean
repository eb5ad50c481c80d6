import PageStore.Id

/-!
# What can go wrong, and how it is told

Every failure is a value that names its cause; its text is computed from the
cause alone. The faults of an encoded field, of a page header and of a whole
page are types of their own, each used inside the next, so a fault found deep
in a page keeps its place in the text.

Results:
* `Error.kind`: every error belongs to one of five kinds.
* `Error.message`: the text of an error.
-/
namespace PageStore

/-- A text that stops being UTF-8 at the character that starts at byte `start`:
after `length` bytes (at least one) that cannot begin a character, or at the end
of the text in the middle of a character. -/
structure Utf8Error where
  start : Nat
  length : Option Nat
  deriving DecidableEq, Repr

def Utf8Error.message (e : Utf8Error) : String :=
  match e.length with
  | some n => "invalid utf-8 sequence of " ++ toString n ++ " bytes from index " ++ toString e.start
  | none => "incomplete utf-8 byte sequence from index " ++ toString e.start

/-- Bytes that are not the encoding of a field. -/
inductive FieldError
  /-- the field takes `needed` bytes and only `available` are left -/
  | short (needed available : Nat)
  /-- the length word is larger than the `limit` on a text -/
  | tooLong (length limit : Nat)
  | notUtf8 (reason : Utf8Error)
  deriving DecidableEq, Repr

def FieldError.message : FieldError → String
  | short n a => "field needs " ++ toString n ++ " bytes, " ++ toString a ++ " available"
  | tooLong n limit => "text length " ++ toString n ++ " exceeds " ++ toString limit
  | notUtf8 e => "text is not UTF-8: " ++ e.message

/-- Bytes that are not the header of a page. -/
inductive HeaderError
  /-- the header takes `needed` bytes and the page has only `available` -/
  | truncated (needed available : Nat)
  /-- an occupancy bit is set past the last of the page's `slots` slots -/
  | strayBits (slots : Nat)
  deriving DecidableEq, Repr

def HeaderError.message : HeaderError → String
  | truncated n a => "truncated header: need " ++ toString n ++ " bytes, have " ++ toString a
  | strayBits n => "slot bitmap marks slots beyond the " ++ toString n ++ " available"

/-- Bytes that are not a page. -/
inductive FormatError
  | wrongLength (expected actual : Nat)
  | header (reason : HeaderError)
  | checksumMismatch
  /-- a slot marked as used does not hold a row -/
  | slot (index : Nat) (reason : FieldError)
  /-- a reason given by another reader of pages -/
  | other (reason : String)
  deriving DecidableEq, Repr

def FormatError.message : FormatError → String
  | wrongLength e a => "expected " ++ toString e ++ " bytes, got " ++ toString a
  | header e => e.message
  | checksumMismatch => "checksum mismatch"
  | slot i e => "slot " ++ toString i ++ ": " ++ e.message
  | other reason => reason

/-- A refusal of the storage below the pages. -/
inductive StorageFault
  /-- the file ends before the bytes that were asked for -/
  | endOfFile
  | alreadyExists
  | notFound
  /-- reading the page was made to fail -/
  | unreadable
  /-- writing the page was made to fail -/
  | unwritable
  /-- a reason given by the device -/
  | other (reason : String)
  deriving DecidableEq, Repr

def StorageFault.message : StorageFault → String
  | endOfFile => "failed to fill whole buffer"
  | alreadyExists => "File exists (os error 17)"
  | notFound => "No such file or directory (os error 2)"
  | unreadable => "injected read failure"
  | unwritable => "injected write failure"
  | other reason => reason

/-- A request that makes no sense for the table or page it is put to. -/
inductive ArgumentError
  | noColumns
  | pageTooSmall (pageSize rowLength : Nat)
  | foreignPage (page : PageId) (table : TableId)
  | pageSizeDiffers (page : PageId) (size expected : Nat)
  /-- the file has `count` pages, so only those and the next may be written -/
  | gap (page : PageId) (count : Nat)
  | tooManyPages (length limit pageSize : Nat)
  | foreignRecord (owner page : PageId)
  | noSuchSlot (page : PageId) (slot : Nat)
  /-- a reason given by the caller -/
  | other (reason : String)
  deriving DecidableEq, Repr

def ArgumentError.message : ArgumentError → String
  | noColumns => "tuple layout has no columns"
  | pageTooSmall p r =>
    "page size " ++ toString p ++ " cannot hold a " ++ toString r ++ "-byte tuple"
  | foreignPage p t => p.text ++ " does not belong to " ++ t.text
  | pageSizeDiffers p s e =>
    p.text ++ " has size " ++ toString s ++ ", file pages are " ++ toString e
  | gap p n => p.text ++ " would leave a gap after page " ++ toString n
  | tooManyPages l n p =>
    toString l ++ " bytes hold more than " ++ toString n ++ " pages of " ++ toString p ++ " bytes"
  | foreignRecord o p => "tuple belongs to " ++ o.text ++ ", not " ++ p.text
  | noSuchSlot p s => p.text ++ " has no slot " ++ toString s
  | other reason => reason

/-- Every way in which an operation can fail. -/
inductive Error
  /-- the lock request would have closed a ring of waiting transactions, or waited too long -/
  | transactionAborted (txn : TxnId)
  /-- all of the `cached` pages are dirty or held -/
  | noEvictablePage (cached : Nat)
  | slotEmpty (page : PageId) (slot : Nat)
  | pageFull (page : PageId)
  | schemaMismatch (table : TableId)
  | missingRecordId
  | unknownTable (table : TableId)
  | duplicateTable (table : TableId)
  | io (fault : StorageFault)
  | format (page : PageId) (reason : FormatError)
  | invalidArgument (reason : ArgumentError)
  deriving DecidableEq, Repr

/-- The coarse classes of errors. -/
inductive ErrorKind
  | transactionAborted
  /-- a logical or capacity failure -/
  | db
  | io
  | format
  | invalidArgument
  deriving DecidableEq, Repr

def Error.kind : Error → ErrorKind
  | transactionAborted _ => .transactionAborted
  | noEvictablePage _ | slotEmpty _ _ | pageFull _ | schemaMismatch _ | missingRecordId
  | unknownTable _ | duplicateTable _ => .db
  | io _ => .io
  | format _ _ => .format
  | invalidArgument _ => .invalidArgument

def Error.message : Error → String
  | transactionAborted t => txnText t ++ " aborted: lock request would deadlock"
  | noEvictablePage n =>
    "no evictable page: all " ++ toString n ++ " cached pages are dirty or in use"
  | slotEmpty p s => "slot " ++ toString s ++ " of " ++ p.text ++ " is already empty"
  | pageFull p => p.text ++ " has no free slot"
  | schemaMismatch t => "tuple schema does not match " ++ t.text
  | missingRecordId => "tuple has no record id"
  | unknownTable t => t.text ++ " is not registered in the catalog"
  | duplicateTable t => t.text ++ " is already registered in the catalog"
  | io e => "I/O error: " ++ e.message
  | format p e => "malformed " ++ p.text ++ ": " ++ e.message
  | invalidArgument e => "invalid argument: " ++ e.message

/-- A call that its own contract forbids; it is refused and changes nothing. -/
inductive Misuse
  /-- a page is shorter than its checksum field -/
  | noChecksumField
  | headerOverflow
  | slotOutOfRange (slot : Nat)
  | emptyPool
  deriving DecidableEq, Repr

/-- The text of a refusal; cutting a page that is too short has none. -/
def Misuse.message? : Misuse → Option String
  | noChecksumField => none
  | headerOverflow => some "buffer too small for PageHeader"
  | slotOutOfRange n => some ("slot " ++ toString n ++ " out of range")
  | emptyPool => some "pool_pages must be > 0"

end PageStore
