import PagedIndex.Error
import PagedIndex.Rate

/-!
# Configuration
-/

namespace PagedIndex

/-- What can be chosen about an index. -/
structure Config where
  /-- The most slots a page may have. -/
  pageSize : Nat := 64
  /-- How many pages of an image are kept in memory. -/
  cacheSize : Nat := 1024
  /-- Whether an image gets a filter. -/
  hasFilter : Bool := false
  /-- The share of absent keys that the filter may wrongly admit. -/
  filterRate : Rate := .percent

namespace Config

/-- The smallest page size that leaves two slots to each half of a split. -/
def minPageSize : Nat := 4

/-- The largest page size, the largest slot count that the header of a page can hold. -/
def maxPageSize : Nat := 0xffffffff

/-- How many slots a page other than the root must have. -/
def minFill (config : Config) : Nat := config.pageSize / 2

/-- Checks that the choices make a usable index. -/
def validate (config : Config) : Except ConfigFault Unit :=
  if config.pageSize < minPageSize then
    .error (.pageTooSmall config.pageSize minPageSize)
  else if config.pageSize > maxPageSize then
    .error (.pageTooLarge config.pageSize)
  else if config.filterRate.isProper then
    .ok ()
  else
    .error (.rateOutside config.filterRate.text)

end Config

end PagedIndex
