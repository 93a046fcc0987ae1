import BlocTest.TwoSum.Model.TwoSum
import BlocTest.SingleList.Refinement
import BlocTest.SingleList.Lifetime
import BlocTest.Common.CInt
import BlocTest.SingleList.Helpers.DelNode
import BlocTest.SingleList.DelNode
import BlocTest.SingleList.Length
import BlocTest.SingleList.Model.Reverse
import BlocTest.SingleList.Reverse
import BlocTest.AddTwoSum.Carry
import BlocTest.Common.Window
import BlocTest.FindSubStr.Model.FindSubStr
import BlocTest.FindSubStr.Helpers.FindSubStr
import BlocTest.FindSubStr.Longest
import BlocTest.Common.Overwrite
import BlocTest.Ramdisk.Model.BlockLayer
import BlocTest.Ramdisk.Model.Ramdisk
import BlocTest.Ramdisk.Helpers.Passes
import BlocTest.Ramdisk.Write
import BlocTest.Ramdisk.Read
import BlocTest.Common.IntType
import BlocTest.Common.Enumerate
import BlocTest.Permutation.Model.Daima
import BlocTest.Permutation.Generators
import BlocTest.Permutation.Agreement
import BlocTest.Permutation.Helpers.Sizes
import BlocTest.Permutation.Sizes
import BlocTest.FindSubStr.Windows
import BlocTest.FindSubStr.MaxSubstr
import BlocTest.Common.Reversal
import BlocTest.ReverseInteger.Model.ReverseInteger
import BlocTest.ReverseInteger.Helpers.Reversal
import BlocTest.ReverseInteger.ReverseNum
import BlocTest.ReverseInteger.Agreement
import BlocTest.Ramdisk.Bounds
import BlocTest.Common.Turning
import BlocTest.ListReverse.Model.ReverseList
import BlocTest.TwoSum.Search
import BlocTest.ListReverse.Agreement
import BlocTest.Netlink.Messages
import BlocTest.Common.Partition
import BlocTest.FastSort.Model.FastSort
import BlocTest.FastSort.Helpers.Partition
import BlocTest.FastSort.Bounds
import BlocTest.Common.Cluster
import BlocTest.Kconfig.Model.Symbol
import BlocTest.Kconfig.Model.Expr
import BlocTest.Kconfig.Model.Transform
import BlocTest.Kconfig.Model.Menu
import BlocTest.Kconfig.Helpers.Values
import BlocTest.Kconfig.Transform
import BlocTest.Kconfig.Helpers.Equality
import BlocTest.Kconfig.Helpers.Joins
import BlocTest.Kconfig.Helpers.Duplicates
import BlocTest.Kconfig.Duplicates
import BlocTest.Kconfig.Equality
import BlocTest.Kconfig.Compare
import BlocTest.Kconfig.Menu
import BlocTest.Kconfig.Submenu
import BlocTest.Ramdisk.Mixed
import BlocTest.SingleList.Model.Session
import BlocTest.SingleList.Session
import BlocTest.Common.Digram
import BlocTest.Kallsyms.Model.Symbols
import BlocTest.Kallsyms.Model.Tokens
import BlocTest.Kallsyms.Helpers.Tokens
import BlocTest.Kallsyms.Helpers.Optimize
import BlocTest.Kallsyms.Compress
import BlocTest.Kallsyms.Model.Output
import BlocTest.Kallsyms.Helpers.Output
import BlocTest.Kallsyms.Helpers.Symbols
import BlocTest.Kallsyms.Output
import BlocTest.Kallsyms.Buffer
import BlocTest.Common.Sorting
import BlocTest.Kallsyms.Order
import BlocTest.Kconfig.Model.Confdata
import BlocTest.Kconfig.Helpers.Confdata
import BlocTest.Kconfig.Confdata
import BlocTest.Kconfig.Accepted
