import Libcbor.Data
import Libcbor.Ops
import Libcbor.Unfold
import Libcbor.Own
import Libcbor.Fresh
import Libcbor.Copy
import Libcbor.CopySpec
import Libcbor.CopyLoop
import Libcbor.CopyCorrect
import Libcbor.CopyDefinite
import Libcbor.Collapse
import Libcbor.CopyDefiniteCorrect
import Libcbor.Load
import Libcbor.LoadCorrect
import Libcbor.LoadPrefix
import Libcbor.Describe
import Libcbor.DescribeCorrect
import Libcbor.LoadRelease
